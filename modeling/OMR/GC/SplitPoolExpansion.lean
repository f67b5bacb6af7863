import OMR.GC.SplitPoolIteration

/-!
# `expandWithRange` of the split pool

A range that touches an entry grows it, whichever list the entry is on. A range that
touches none, or that may not be coalesced, becomes an entry of a list that is chosen
without a look at the addresses: the last one, or the first one. Whether the lists still
follow each other in memory is then a matter of where the range lies.
-/

namespace OMR.GC.SplitPool

open OMR.Lib

/-- `isCurrentReservedFreeEntry`. -/
def isCurrentReservedFreeEntry (p : SplitPool) (curFreeEntry : Extent) (curFreeList : ℕ) : Bool :=
  curFreeList = p.reservedFreeListIndex ∧
    ((p.heapFreeLists curFreeList).next p.previousReservedFreeEntry).head?.map Extent.base =
      some curFreeEntry.base

/-- `reservedFreeEntryConsistencyCheck`; it fails as well where there is no entry to check. -/
def reservedFreeEntryConsistencyCheck (p : SplitPool) : Bool :=
  if p.reservedFreeEntryAvaliable then
    match (p.heapFreeLists p.reservedFreeListIndex).next p.previousReservedFreeEntry with
    | [] => false
    | freeEntry :: _ => p.reservedFreeEntrySize = freeEntry.size
  else true

/-- An entry of a list gives way to one that is larger by `expandSize`, which leaves the list
`entries`. -/
def growEntry (p : SplitPool) (i : ℕ) (entries : List Extent) (oldEntry newEntry : Extent)
    (expandSize : ℕ) : SplitPool :=
  let list := p.heapFreeLists i
  { p.setList i { list with freeList := entries, freeSize := list.freeSize + expandSize } with
    reservedFreeEntrySize :=
      if p.isCurrentReservedFreeEntry oldEntry i then newEntry.size else p.reservedFreeEntrySize
    largestFreeEntry :=
      if newEntry.size > p.largestFreeEntry then newEntry.size else p.largestFreeEntry }

/-- The range is fused to the head of the next entry if they touch. -/
def fuseToNext (p : SplitPool) (i : ℕ) (previous next : List Extent) (range : Extent) :
    Option SplitPool :=
  match next with
  | [] => none
  | nextFreeEntry :: rest =>
    if range.top = nextFreeEntry.base then
      let newFreeEntry := ⟨range.base, range.size + nextFreeEntry.size⟩
      some (p.growEntry i (previous ++ newFreeEntry :: rest) nextFreeEntry newFreeEntry range.size)
    else none

/-- `expandWithRange` on one list: the range is fused to the entry before it or to the one
behind it, if it touches one of them. -/
def fuseInList (p : SplitPool) (i : ℕ) (range : Extent) : Option SplitPool :=
  let previous := (p.entries i).takeWhile fun e => e.base ≤ range.base
  let next := (p.entries i).dropWhile fun e => e.base ≤ range.base
  match previous.getLast? with
  | some previousFreeEntry =>
    if range.base = previousFreeEntry.top then
      let newFreeEntry := ⟨previousFreeEntry.base, previousFreeEntry.size + range.size⟩
      some (p.growEntry i (previous.dropLast ++ newFreeEntry :: next) previousFreeEntry
        newFreeEntry range.size)
    else p.fuseToNext i previous next range
  | none => p.fuseToNext i previous next range

/-- The last part of `expandWithRange`: a new entry of a list, between its neighbours there. -/
def insertRange (p : SplitPool) (i : ℕ) (range : Extent) : SplitPool :=
  let list := p.heapFreeLists i
  let previous := (p.entries i).takeWhile fun e => e.base ≤ range.base
  let next := (p.entries i).dropWhile fun e => e.base ≤ range.base
  { p.setList i { list with
      freeList := previous ++ range :: next
      freeSize := list.freeSize + range.size
      freeCount := list.freeCount + 1 } with
    largestFreeEntry :=
      if range.size > p.largestFreeEntry then range.size else p.largestFreeEntry }

/-- `expandWithRange` of `[lowAddress, lowAddress + expandSize)`: the pool, and whether the
assertion at the end holds. -/
def expandWithRange (p : SplitPool) (range : Extent) (canCoalesce : Bool) : SplitPool × Bool :=
  if range.size = 0 then (p, true)
  else if range.size < p.minimumFreeEntrySize then (p, true)
  else
    -- without coalescing the loop over the lists is left in the first one
    let fused :=
      if canCoalesce then (List.range p.heapFreeListCount).findSome? fun i => p.fuseInList i range
      else none
    match fused with
    | some p => (p, true)
    | none =>
      let p := p.insertRange (if canCoalesce then p.heapFreeListCount - 1 else 0) range
      (p, p.reservedFreeEntryConsistencyCheck)

/-- The range is given up, or touches an entry it may be coalesced with, or lies where the list
does that it is put into: above the lists before the last one, or below those after the
first. -/
def RangeFits (p : SplitPool) (range : Extent) (canCoalesce : Bool) : Prop :=
  range.size = 0 ∨ range.size < p.minimumFreeEntrySize ∨
    (canCoalesce = true ∧
      ((∃ e ∈ p.allEntries, e.top = range.base ∨ range.top = e.base) ∨
        ∀ i < p.heapFreeListCount - 1, ∀ e ∈ p.entries i, e.base < range.base)) ∨
    (canCoalesce = false ∧
      ∀ i, 0 < i → i < p.heapFreeListCount → ∀ e ∈ p.entries i, range.base < e.base)

variable {p p' : SplitPool} {range : Extent} {i : ℕ}

/-- An entry of one list has grown by a range that touches it. -/
structure Fused (p : SplitPool) (i : ℕ) (range : Extent) (p' : SplitPool) : Prop where
  count : p'.heapFreeListCount = p.heapFreeListCount
  other : ∀ j, j ≠ i → p'.entries j = p.entries j
  grown : ∃ xs e ys, p.entries i = xs ++ e :: ys ∧
    (e.top = range.base ∧ p'.entries i = xs ++ ⟨e.base, e.size + range.size⟩ :: ys ∨
      range.top = e.base ∧ p'.entries i = xs ++ ⟨range.base, range.size + e.size⟩ :: ys)

theorem growEntry_entries_self (p : SplitPool) (i : ℕ) (l : List Extent) (a b : Extent) (n : ℕ) :
    (p.growEntry i l a b n).entries i = l := entries_setList_self ..

theorem growEntry_entries_of_ne (p : SplitPool) {j : ℕ} (l : List Extent) (a b : Extent) (n : ℕ)
    (h : j ≠ i) : (p.growEntry i l a b n).entries j = p.entries j := entries_setList_of_ne _ _ h

theorem insertRange_entries_self (p : SplitPool) (i : ℕ) (range : Extent) :
    (p.insertRange i range).entries i =
      ((p.entries i).takeWhile fun e => e.base ≤ range.base) ++
        range :: (p.entries i).dropWhile fun e => e.base ≤ range.base := entries_setList_self ..

theorem insertRange_entries_of_ne (p : SplitPool) {j : ℕ} (range : Extent) (h : j ≠ i) :
    (p.insertRange i range).entries j = p.entries j := entries_setList_of_ne _ _ h

theorem fuseToNext_some {xs ys : List Extent} (hlist : p.entries i = xs ++ ys)
    (h : p.fuseToNext i xs ys range = some p') : Fused p i range p' := by
  cases ys with
  | nil => cases h
  | cons next rest =>
    rw [fuseToNext] at h
    split at h
    · next htouch =>
      obtain rfl := Option.some.inj h
      exact ⟨rfl, fun j hj => growEntry_entries_of_ne p _ _ _ _ hj, xs, next, rest, hlist,
        Or.inr ⟨htouch, growEntry_entries_self ..⟩⟩
    · cases h

theorem fuseInList_some (h : p.fuseInList i range = some p') : Fused p i range p' := by
  have hlist := Pool.walk_append (p.entries i) range.base
  rw [fuseInList] at h
  dsimp only at h
  split at h
  · next prev hlast =>
    split at h
    · next htouch =>
      obtain rfl := Option.some.inj h
      have hprev := List.dropLast_append_getLast? prev hlast
      refine ⟨rfl, fun j hj => growEntry_entries_of_ne p _ _ _ _ hj, _, prev, _, ?_,
        Or.inl ⟨htouch.symm, growEntry_entries_self ..⟩⟩
      rw [← List.singleton_append, ← List.append_assoc, hprev]
      exact hlist
    · exact fuseToNext_some hlist h
  · exact fuseToNext_some hlist h

/-- A list has an entry that the range touches, and then it is found. -/
theorem fuseInList_none (hord : AddressOrdered (p.entries i)) (hpos : 0 < range.size)
    (hap : ∀ e ∈ p.entries i, range.Apart e) (h : p.fuseInList i range = none) :
    ∀ e ∈ p.entries i, e.top ≠ range.base ∧ range.top ≠ e.base := by
  have hlist := Pool.walk_append (p.entries i) range.base
  have hplace := Pool.insert_ordered hord hpos hap
  have hcut := AddressOrdered.append_iff.1 (hlist ▸ hord)
  rw [fuseInList] at h
  dsimp only at h
  generalize hxs : ((p.entries i).takeWhile fun e => e.base ≤ range.base) = xs at *
  generalize hys : ((p.entries i).dropWhile fun e => e.base ≤ range.base) = ys at *
  have hbefore : ∀ e ∈ xs, e.top ≤ range.base := fun e he => hplace.around.1 e he
  have hbehind : ∀ e ∈ ys, range.top ≤ e.base := fun e he => hplace.around.2 e he
  -- only the last entry before the range and the first one behind it may touch it
  have hnext : p.fuseToNext i xs ys range = none → ∀ e ∈ ys, range.top ≠ e.base := by
    intro hnone e he htouch
    cases ys with
    | nil => cases he
    | cons next rest =>
      have hpos := hcut.2.1.size_pos next (List.mem_cons_self ..)
      obtain rfl | he := List.mem_cons.1 he
      · rw [fuseToNext, if_pos htouch] at hnone
        cases hnone
      · have hnext := hbehind next (List.mem_cons_self ..)
        have hrest := (AddressOrdered.cons_iff.1 hcut.2.1).2.2 e he
        simp only [Extent.top] at *
        omega
  have hsplit : (∀ e ∈ xs, e.top ≠ range.base) ∧ ∀ e ∈ ys, range.top ≠ e.base := by
    split at h
    · next prev hlast =>
      have hprev := List.dropLast_append_getLast? prev hlast
      split at h
      · cases h
      · next hnot =>
        refine ⟨fun e he htouch => ?_, hnext h⟩
        rw [← hprev] at he hcut
        obtain he | he := List.mem_append.1 he
        · have hle := (AddressOrdered.append_iff.1 hcut.1).2.2 e he prev (by simp)
          have hpos := hcut.1.size_pos prev (by simp)
          have hprev := hbefore prev (by rw [← hprev]; simp)
          simp only [Extent.top] at *
          omega
        · rw [List.mem_singleton.1 he] at htouch
          exact hnot htouch.symm
    · next hlast =>
      rw [List.getLast?_eq_none_iff.1 hlast]
      exact ⟨fun e he => absurd he List.not_mem_nil, hnext h⟩
  intro e he
  rw [hlist] at he
  obtain he | he := List.mem_append.1 he
  · refine ⟨hsplit.1 e he, fun htouch => ?_⟩
    have := hbefore e he
    simp only [Extent.top] at *
    omega
  · refine ⟨fun htouch => ?_, hsplit.2 e he⟩
    have := hbehind e he
    simp only [Extent.top] at *
    omega

theorem allEntries_eq_append (hi : i < p.heapFreeListCount) :
    p.allEntries = (List.range i).flatMap p.entries ++ (p.entries i ++ p.entriesFrom (i + 1)) := by
  have hrange := List.range'_append_1 (s := 0) (m := i) (n := p.heapFreeListCount - i)
  rw [Nat.zero_add, Nat.add_sub_cancel' hi.le] at hrange
  rw [← entriesFrom_eq_append hi, allEntries, entriesFrom, ← List.flatMap_append,
    List.range_eq_range', List.range_eq_range', hrange]

/-- The place of the range is next to the entry that has grown. -/
theorem Fused.inOrder (hf : Fused p i range p') (hi : i < p.heapFreeListCount)
    (h : p.ListsInOrder) (hpos : 0 < range.size) (hap : ∀ e ∈ p.allEntries, range.Apart e) :
    p'.ListsInOrder := by
  have hother : (List.range i).flatMap p'.entries = (List.range i).flatMap p.entries :=
    List.flatMap_congr fun j hj => hf.other j (by have := List.mem_range.1 hj; omega)
  have hbehind : p'.entriesFrom (i + 1) = p.entriesFrom (i + 1) := by
    rw [entriesFrom, entriesFrom, hf.count]
    exact List.flatMap_congr fun j hj => hf.other j (by have := List.mem_range'_1.1 hj; omega)
  have hall := allEntries_eq_append hi
  have hall' := allEntries_eq_append (p := p') (hf.count ▸ hi)
  rw [hother, hbehind] at hall'
  rw [listsInOrder_iff] at h ⊢
  obtain ⟨xs, e, ys, hlist, hgrown⟩ := hf.grown
  generalize (List.range i).flatMap p.entries = low at *
  generalize p.entriesFrom (i + 1) = high at *
  rw [hlist] at hall
  rw [hall] at h hap
  have hassoc : low ++ (xs ++ e :: ys ++ high) = low ++ xs ++ e :: (ys ++ high) := by simp
  rw [hassoc] at h hap
  have hsize := h.size_pos e (by simp)
  rw [hall']
  obtain ⟨htouch, hentries⟩ | ⟨htouch, hentries⟩ := hgrown
  · have hinsert : AddressOrdered (low ++ xs ++ [e] ++ ([range] ++ (ys ++ high))) :=
      AddressOrdered.insert (by simpa using h) hpos (fun a ha => ?_) (fun b hb => ?_)
        (by simpa using hap)
    · have hboth : AddressOrdered (low ++ xs ++ ([e, range] ++ (ys ++ high))) := by
        simpa using hinsert
      have hfused := hboth.fuse htouch
      rw [hentries]
      simpa using hfused
    · obtain ha | ha := List.mem_append.1 ha
      · have := h.around.1 a ha
        simp only [Extent.top] at *
        omega
      · rw [List.mem_singleton.1 ha]
        simp only [Extent.top] at *
        omega
    · have := h.around.2 b hb
      omega
  · have hinsert : AddressOrdered (low ++ xs ++ ([range] ++ e :: (ys ++ high))) :=
      AddressOrdered.insert h hpos (fun a ha => ?_) (fun b hb => ?_) hap
    · have hboth : AddressOrdered (low ++ xs ++ ([range, e] ++ (ys ++ high))) := by
        simpa using hinsert
      have hfused := hboth.fuse htouch
      rw [hentries]
      simpa using hfused
    · have hbelow := h.around.1 a ha
      have hapart := hap a (List.mem_append_left _ ha)
      have hsizea := h.size_pos a (List.mem_append_left _ ha)
      simp only [Extent.Apart, Extent.top] at *
      omega
    · obtain rfl | hb := List.mem_cons.1 hb
      · simp only [Extent.top] at htouch
        omega
      · have := h.around.2 b hb
        simp only [Extent.top] at *
        omega

/-- A new entry of a list keeps the order if it lies between the lists around this one. -/
theorem insertRange_inOrder_iff (hi : i < p.heapFreeListCount) (h : p.ListsInOrder)
    (hpos : 0 < range.size)
    (hap : ∀ j < p.heapFreeListCount, ∀ e ∈ p.entries j, range.Apart e) :
    (p.insertRange i range).ListsInOrder ↔
      (∀ j < i, ∀ e ∈ p.entries j, e.base < range.base) ∧
        ∀ j, i < j → j < p.heapFreeListCount → ∀ e ∈ p.entries j, range.base < e.base := by
  have hmem : range ∈ (p.insertRange i range).entries i := by simp [insertRange_entries_self]
  constructor
  · intro h'
    refine ⟨fun j hj e he => ?_, fun j hij hj e he => ?_⟩
    · have hsize := (h.each j (by omega)).size_pos e he
      have hbelow := h'.across j i hj hi e (by rwa [insertRange_entries_of_ne _ _ (by omega)])
        range hmem
      simp only [Extent.top] at hbelow
      omega
    · have habove := h'.across i j hij hj range hmem e
        (by rwa [insertRange_entries_of_ne _ _ (by omega)])
      simp only [Extent.top] at habove
      omega
  · rintro ⟨hlow, hhigh⟩
    have hother : ∀ j, j ≠ i → (p.insertRange i range).entries j = p.entries j :=
      fun j hj => insertRange_entries_of_ne _ _ hj
    have hself : ∀ e ∈ (p.insertRange i range).entries i, e = range ∨ e ∈ p.entries i := by
      intro e he
      rw [insertRange_entries_self] at he
      obtain he | he := List.mem_append.1 he
      · exact Or.inr ((List.takeWhile_sublist _).mem he)
      · obtain rfl | he := List.mem_cons.1 he
        · exact Or.inl rfl
        · exact Or.inr ((List.dropWhile_sublist _).mem he)
    refine ⟨fun j hj => ?_, fun j k hjk hk a ha b hb => ?_⟩
    · by_cases hne : j = i
      · rw [hne, insertRange_entries_self]
        exact Pool.insert_ordered (h.each i hi) hpos (hap i hi)
      · rw [hother j hne]
        exact h.each j hj
    · have hk' : k < p.heapFreeListCount := hk
      by_cases hji : j = i
      · rw [hother k (by omega)] at hb
        rw [hji] at ha hjk
        obtain rfl | ha := hself a ha
        · exact (hap k hk' b hb).top_le ((h.each k hk').size_pos b hb) (hhigh k hjk hk' b hb).le
        · exact h.across i k hjk hk' a ha b hb
      · rw [hother j hji] at ha
        by_cases hki : k = i
        · rw [hki] at hb hjk
          obtain rfl | hb := hself b hb
          · exact (hap j (by omega) a ha).symm.top_le hpos (hlow j hjk a ha).le
          · exact h.across j i hjk hi a ha b hb
        · rw [hother k hki] at hb
          exact h.across j k hjk hk' a ha b hb

/-- `expandWithRange` keeps the lists in order just where the range fits. -/
theorem expandWithRange_inOrder_iff (canCoalesce : Bool) (h : p.ListsInOrder)
    (hap : ∀ e ∈ p.allEntries, range.Apart e) :
    (p.expandWithRange range canCoalesce).1.ListsInOrder ↔ p.RangeFits range canCoalesce := by
  have hmem : ∀ {j e}, j < p.heapFreeListCount → e ∈ p.entries j → e ∈ p.allEntries :=
    fun hj he => List.mem_flatMap.2 ⟨_, List.mem_range.2 hj, he⟩
  unfold expandWithRange RangeFits
  by_cases hzero : range.size = 0
  · simp [hzero, h]
  by_cases hsmall : range.size < p.minimumFreeEntrySize
  · simp [hzero, hsmall, h]
  have hpos : 0 < range.size := by omega
  have hapart : ∀ j < p.heapFreeListCount, ∀ e ∈ p.entries j, range.Apart e :=
    fun j hj e he => hap e (hmem hj he)
  simp only [hzero, hsmall, if_false, false_or]
  cases canCoalesce with
  | false =>
    simp only [Bool.false_eq_true, if_false, false_and, false_or, true_and]
    by_cases hcount : p.heapFreeListCount = 0
    · refine iff_of_true ⟨fun i hi => ?_, fun i j _ hj => ?_⟩ fun i _ hi => by omega
      · exact absurd (show i < p.heapFreeListCount from hi) (by omega)
      · exact absurd (show j < p.heapFreeListCount from hj) (by omega)
    · rw [insertRange_inOrder_iff (by omega) h hpos hapart]
      exact ⟨fun hfits => hfits.2, fun hfits => ⟨fun j hj => by omega, hfits⟩⟩
  | true =>
    simp only [if_true, true_and, Bool.true_eq_false, false_and, or_false]
    cases hfused : (List.range p.heapFreeListCount).findSome? fun i => p.fuseInList i range with
    | some p' =>
      obtain ⟨i, hi, hi'⟩ := List.exists_of_findSome?_eq_some hfused
      have hf := fuseInList_some hi'
      have hlt := List.mem_range.1 hi
      refine iff_of_true (hf.inOrder hlt h hpos hap) (Or.inl ?_)
      obtain ⟨xs, e, ys, hlist, hgrown⟩ := hf.grown
      exact ⟨e, hmem hlt (by simp [hlist]), hgrown.imp And.left And.left⟩
    | none =>
      have hnone : ∀ e ∈ p.allEntries, e.top ≠ range.base ∧ range.top ≠ e.base := by
        intro e he
        obtain ⟨i, hi, he⟩ := List.mem_flatMap.1 he
        have hlt := List.mem_range.1 hi
        exact fuseInList_none (h.each i hlt) hpos (hapart i hlt)
          (List.findSome?_eq_none_iff.1 hfused i hi) e he
      have htouch : ¬∃ e ∈ p.allEntries, e.top = range.base ∨ range.top = e.base := by
        rintro ⟨e, he, htop | htop⟩
        · exact (hnone e he).1 htop
        · exact (hnone e he).2 htop
      simp only [htouch, false_or]
      by_cases hcount : p.heapFreeListCount = 0
      · refine iff_of_true ⟨fun i hi => ?_, fun i j _ hj => ?_⟩ fun i hi => by omega
        · exact absurd (show i < p.heapFreeListCount from hi) (by omega)
        · exact absurd (show j < p.heapFreeListCount from hj) (by omega)
      · rw [insertRange_inOrder_iff (by omega) h hpos hapart]
        exact ⟨fun hfits => hfits.1, fun hfits => ⟨hfits, fun j hj hj' => by omega⟩⟩

/-- Every walk meets all entries of lists that are in order, and `expandWithRange` with a range
outside the pool keeps them in order, just where the range fits. -/
theorem walksAll_and_expandWithRange_iff (canCoalesce : Bool) (h : p.ListsInOrder)
    (hap : ∀ e ∈ p.allEntries, range.Apart e) :
    p.WalksAll ∧ (p.expandWithRange range canCoalesce).1.ListsInOrder ↔
      p.RangeFits range canCoalesce := by
  rw [expandWithRange_inOrder_iff canCoalesce h hap]
  exact and_iff_right h.walksAll

/-- Two lists in order, with a gap between them and room on both sides. -/
def twoListPool : SplitPool where
  minimumFreeEntrySize := 512
  heapFreeListCount := 2
  heapFreeLists := fun i =>
    if i = 0 then ⟨[⟨4096, 512⟩, ⟨8192, 1024⟩], 1536, 2, 0, HintCache.initHints⟩
    else ⟨[⟨16384, 1024⟩], 1024, 1, 0, HintCache.initHints⟩
  currentThreadFreeList := id
  reservedFreeEntrySize := 1024
  previousReservedFreeEntry := .entry 4096
  reservedFreeListIndex := 0
  reservedFreeEntryAvaliable := true
  largestFreeEntry := 1024
  allocCount := 0
  allocBytes := 0
  allocSearchCount := 0
  allocDiscardedBytes := 0

theorem twoListPool_inOrder : twoListPool.ListsInOrder := by
  rw [listsInOrder_iff]
  decide +kernel

theorem walksAll_and_expandWithRange_iff_twoListPool :
    twoListPool.WalksAll ∧ (twoListPool.expandWithRange ⟨12288, 512⟩ false).1.ListsInOrder ↔
      twoListPool.RangeFits ⟨12288, 512⟩ false :=
  walksAll_and_expandWithRange_iff false twoListPool_inOrder (by decide +kernel)

/-- A range above both lists that may not be coalesced goes into the first one, and the walk
misses the second list. -/
theorem expandWithRange_hides_list :
    twoListPool.ListsInOrder ∧ (∀ e ∈ twoListPool.allEntries, (⟨20480, 512⟩ : Extent).Apart e) ∧
      ¬(twoListPool.expandWithRange ⟨20480, 512⟩ false).1.ListsInOrder ∧
      (twoListPool.expandWithRange ⟨20480, 512⟩ false).2 = true ∧
      (twoListPool.expandWithRange ⟨20480, 512⟩ false).1.freeStartingAddrs 5
        ((twoListPool.expandWithRange ⟨20480, 512⟩ false).1.getFirstFreeStartingAddr none) =
          some [4096, 8192, 20480] := by
  refine ⟨twoListPool_inOrder, by decide +kernel, fun h => ?_, by decide +kernel,
    by decide +kernel⟩
  have := h.across 0 1 (by decide) (by decide) ⟨20480, 512⟩ (by decide +kernel) ⟨16384, 1024⟩
    (by decide +kernel)
  exact absurd this (by decide)

end OMR.GC.SplitPool
