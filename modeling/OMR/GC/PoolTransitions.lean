import OMR.GC.MemoryPoolAddressOrderedList

/-!
# What an operation does to the pool

One description of each operation, from which the invariants of the pool are
derived: which entries of the free list give way to which others, what becomes of
the counters, and what becomes of the hints.
-/

namespace OMR.GC.Pool

open OMR.Lib

theorem freeEntryIn_eq_some {minimum a b : ℕ} {e : Extent} (h : freeEntryIn minimum a b = some e) :
    e.base = a ∧ e.top = b ∧ 0 < e.size ∧ minimum ≤ e.size := by
  unfold freeEntryIn at h
  split at h
  case isTrue hfit =>
    obtain rfl := Option.some.inj h
    simp only [sizeofFreeHeader] at hfit
    refine ⟨rfl, ?_, ?_, hfit.2⟩
    · simp only [Extent.top]
      omega
    · dsimp only
      omega
  case isFalse => simp at h

/-- A range that is made into an entry or given up gives an ordered list. -/
theorem addressOrdered_freeEntryIn (minimum a b : ℕ) :
    AddressOrdered (freeEntryIn minimum a b).toList := by
  cases h : freeEntryIn minimum a b with
  | none => exact AddressOrdered.nil
  | some e => exact AddressOrdered.singleton (freeEntryIn_eq_some h).2.2.1

/-- The bytes that are kept of a range. -/
theorem totalSize_freeEntryIn (minimum a b : ℕ) :
    totalSize (freeEntryIn minimum a b).toList =
      if (freeEntryIn minimum a b).isSome then b - a else 0 := by
  unfold freeEntryIn
  split <;> simp

variable {p p' : Pool}

theorem mem_createFreeEntry {a b : ℕ} {e : Extent} (h : e ∈ (p.createFreeEntry a b).toList) :
    e.base = a ∧ e.top = b ∧ 0 < e.size ∧ p.minimumFreeEntrySize ≤ e.size :=
  freeEntryIn_eq_some (Option.mem_toList.1 h)

/-- A walk from a hint begins at the entry the hint names. -/
theorem startOfWalk_some {list before rest : List Extent} {hint : AllocateHint}
    (h : startOfWalk list (some hint) = some (before, rest)) :
    list = before ++ rest ∧ (∀ e ∈ before, e.base ≠ hint.heapFreeHeader) ∧
      ∃ e rest', rest = e :: rest' ∧ e.base = hint.heapFreeHeader := by
  simp only [startOfWalk] at h
  split at h
  · simp at h
  · rename_i e rest' hdrop
    obtain ⟨rfl, rfl⟩ := Prod.mk.inj (Option.some.inj h)
    refine ⟨?_, fun a ha => by simpa using List.mem_takeWhile_imp ha, e, rest', rfl, ?_⟩
    · rw [← hdrop, List.takeWhile_append_dropWhile]
    · simpa using not_of_dropWhile_eq_cons hdrop

/-- A walk always begins on the list. -/
theorem startOfWalk_eq_append {list before rest : List Extent} {used : Option AllocateHint}
    (h : startOfWalk list used = some (before, rest)) : list = before ++ rest := by
  cases used with
  | none =>
    obtain ⟨rfl, rfl⟩ := Prod.mk.inj (Option.some.inj h)
    rfl
  | some hint => exact (startOfWalk_some h).1

/-- A walk begins where a hint names an entry of the list. -/
theorem startOfWalk_isSome {list : List Extent} {used : Option AllocateHint}
    (h : ∀ hint, used = some hint → ∃ e ∈ list, e.base = hint.heapFreeHeader) :
    ∃ before rest, startOfWalk list used = some (before, rest) := by
  cases used with
  | none => exact ⟨[], list, rfl⟩
  | some hint =>
    obtain ⟨e, he, hbase⟩ := h hint rfl
    cases hdrop : list.dropWhile fun a => a.base ≠ hint.heapFreeHeader with
    | nil =>
      have := List.dropWhile_eq_nil_iff.1 hdrop e he
      simp [hbase] at this
    | cons a rest =>
      refine ⟨list.takeWhile fun a => a.base ≠ hint.heapFreeHeader, a :: rest, ?_⟩
      simp only [startOfWalk, hdrop]

/-- The list after an allocation: the entry found gives way to what is recycled of it,
and what stands before it is lost if the walk ended where it began. -/
structure AllocatedFrom (p p' : Pool) (size : ℕ) (before walked : List Extent)
    (current : Extent) (next : List Extent) : Prop where
  start : startOfWalk p.heapFreeList (p.findHint size).2 =
    some (before, walked ++ current :: next)
  walked_small : ∀ e ∈ walked, e.size < size
  current_fits : size ≤ current.size
  list_eq : p'.heapFreeList = (if walked = [] then [] else before ++ walked) ++
    ((p.createFreeEntry (current.base + size) current.top).toList ++ next)
  minimum_eq : p'.minimumFreeEntrySize = p.minimumFreeEntrySize
  freeMemorySize_eq : p'.freeMemorySize = p.freeMemorySize +
    totalSize (p.createFreeEntry (current.base + size) current.top).toList - current.size
  freeEntryCount_eq : p'.freeEntryCount = p.freeEntryCount +
    (p.createFreeEntry (current.base + size) current.top).toList.length - 1
  hints_eq : (∃ r, p.createFreeEntry (current.base + size) current.top = some r ∧
      (hintsAfterWalk (p.findHint size).1 (p.findHint size).2 walked).updateHint current.base
        (current.base + size) = some p'.hints) ∨
    (p.createFreeEntry (current.base + size) current.top = none ∧ p'.hints =
      (hintsAfterWalk (p.findHint size).1 (p.findHint size).2 walked).removeHint current.base)

/-- The two outcomes of `internalAllocate`. -/
theorem internalAllocate_cases {size : ℕ} {r : Option ℕ}
    (h : p.internalAllocate size = some (p', r)) :
    (r = none ∧ ∃ before rest, startOfWalk p.heapFreeList (p.findHint size).2 =
        some (before, rest) ∧ (∀ e ∈ rest, e.size < size) ∧
        p' = { p with hints := (p.findHint size).1, largestFreeEntry := largestSize 0 rest }) ∨
    ∃ before walked current next, r = some current.base ∧
      AllocatedFrom p p' size before walked current next := by
  unfold internalAllocate at h
  dsimp only at h
  split at h
  · simp at h
  · rename_i before rest hstart
    have hsplit := List.takeWhile_append_dropWhile (p := fun e : Extent => decide (e.size < size))
      (l := rest)
    have hsmall : ∀ e ∈ rest.takeWhile fun e => decide (e.size < size), e.size < size :=
      fun e he => by simpa using List.mem_takeWhile_imp he
    generalize rest.takeWhile (fun e => decide (e.size < size)) = walked at h hsplit hsmall
    split at h
    · rename_i hdrop
      rw [hdrop, List.append_nil] at hsplit
      obtain ⟨rfl, rfl⟩ := Prod.mk.inj (Option.some.inj h)
      subst hsplit
      exact Or.inl ⟨rfl, before, walked, hstart, hsmall, rfl⟩
    · rename_i current next hdrop
      right
      have hfits : size ≤ current.size := by
        simpa using not_of_dropWhile_eq_cons hdrop
      have htop : current.base + size + (current.size - size) = current.top := by
        simp only [Extent.top]
        omega
      rw [hdrop] at hsplit
      subst hsplit
      rw [htop] at h
      cases hrec : p.createFreeEntry (current.base + size) current.top with
      | some e =>
        simp only [hrec] at h
        split at h
        · simp at h
        · rename_i hints hupd
          obtain ⟨rfl, rfl⟩ := Prod.mk.inj (Option.some.inj h)
          have hesize : e.size = current.size - size := by
            obtain ⟨hbase, htop, -⟩ := freeEntryIn_eq_some hrec
            simp only [Extent.top] at htop
            omega
          refine ⟨before, walked, current, next, rfl, hstart, hsmall, hfits, ?_, rfl, ?_, ?_,
            Or.inl ⟨e, hrec, hupd⟩⟩
          · simp [hrec]
          · simp only [hrec, Option.toList_some, totalSize_cons, totalSize_nil, hesize]
            omega
          · simp [hrec]
      | none =>
        simp only [hrec] at h
        obtain ⟨rfl, rfl⟩ := Prod.mk.inj (Option.some.inj h)
        refine ⟨before, walked, current, next, rfl, hstart, hsmall, hfits, ?_, rfl, ?_, ?_,
          Or.inr ⟨hrec, rfl⟩⟩
        · simp [hrec]
        · simp only [hrec, Option.toList_none, totalSize_nil]
          omega
        · simp [hrec]

theorem AllocatedFrom.heapFreeList_eq {size : ℕ} {before walked next : List Extent}
    {current : Extent} (ha : AllocatedFrom p p' size before walked current next) :
    p.heapFreeList = (before ++ walked) ++ current :: next := by
  rw [startOfWalk_eq_append ha.start, List.append_assoc]

/-- The hint that `findHint` selects for a request names an entry of the list that is
too small for the request or is the head of the list. -/
def HintLeadsOn (p : Pool) (sizeInBytesRequired : ℕ) : Prop :=
  ∀ hint, (p.findHint sizeInBytesRequired).2 = some hint →
    ∃ e ∈ p.heapFreeList, e.base = hint.heapFreeHeader ∧
      (e.size < sizeInBytesRequired ∨ p.heapFreeList.head? = some e)

instance (p : Pool) (size : ℕ) : Decidable (p.HintLeadsOn size) :=
  match hused : (p.findHint size).2 with
  | none => isTrue fun hint h => by simp [hused] at h
  | some hint => decidable_of_iff (∃ e ∈ p.heapFreeList, e.base = hint.heapFreeHeader ∧
      (e.size < size ∨ p.heapFreeList.head? = some e))
    ⟨fun h hint' h' => by rw [hused, Option.some.injEq] at h'; exact h' ▸ h,
      fun h => h hint hused⟩

/-- A hint that leads on does not make the walk lose entries. -/
theorem AllocatedFrom.previous_eq {size : ℕ} {before walked next : List Extent}
    {current : Extent} (ha : AllocatedFrom p p' size before walked current next)
    (hord : AddressOrdered p.heapFreeList) (hhint : p.HintLeadsOn size) :
    (if walked = [] then [] else before ++ walked) = before ++ walked := by
  split
  case isFalse => rfl
  case isTrue hwalked =>
    subst hwalked
    cases hused : (p.findHint size).2 with
    | none =>
      have hstart := ha.start
      rw [hused] at hstart
      obtain ⟨rfl, -⟩ := Prod.mk.inj (Option.some.inj hstart)
      rfl
    | some hint =>
      have hstart := ha.start
      rw [hused] at hstart
      obtain ⟨hlist, hbefore, e, rest, he, hbase⟩ := startOfWalk_some hstart
      obtain ⟨rfl, rfl⟩ := List.cons.inj he
      obtain ⟨e', he', hbase', hsmall⟩ := hhint hint hused
      have hcurrent : e' = current := by
        refine hord.eq_of_base_eq he' ?_ (hbase'.trans hbase.symm)
        rw [hlist]
        simp
      subst hcurrent
      rcases hsmall with hsmall | hhead
      · exact absurd ha.current_fits (by omega)
      · cases before with
        | nil => rfl
        | cons b before =>
          rw [hlist] at hhead
          simp only [List.cons_append, List.head?_cons, Option.some.injEq] at hhead
          subst hhead
          exact absurd hbase (hbefore b (by simp))

/-- The pool after a range of `consumed` bytes was taken from the head of the list. -/
structure TookHead (p p' : Pool) (freeEntry : Extent) (next : List Extent) (consumed : ℕ) :
    Prop where
  heapFreeList_eq : p.heapFreeList = freeEntry :: next
  minimum_le : p.minimumFreeEntrySize ≤ freeEntry.size
  consumed_le : consumed ≤ freeEntry.size
  list_eq : p'.heapFreeList =
    (p.createFreeEntry (freeEntry.base + consumed) freeEntry.top).toList ++ next
  minimum_eq : p'.minimumFreeEntrySize = p.minimumFreeEntrySize
  freeMemorySize_eq : p'.freeMemorySize = p.freeMemorySize +
    totalSize (p.createFreeEntry (freeEntry.base + consumed) freeEntry.top).toList -
      freeEntry.size
  freeEntryCount_eq : p'.freeEntryCount = p.freeEntryCount +
    (p.createFreeEntry (freeEntry.base + consumed) freeEntry.top).toList.length - 1
  hints_eq : p'.hints = p.hints

/-- The two outcomes of `internalAllocateTLH`. -/
theorem internalAllocateTLH_cases {maximum : ℕ} {r : Option Extent}
    (h : p.internalAllocateTLH maximum = some (p', r)) :
    (r = none ∧ p.heapFreeList = [] ∧ p' = { p with largestFreeEntry := 0 }) ∨
    ∃ freeEntry next consumed, r = some ⟨freeEntry.base, consumed⟩ ∧
      min maximum freeEntry.size ≤ consumed ∧ TookHead p p' freeEntry next consumed := by
  unfold internalAllocateTLH at h
  split at h
  · rename_i hlist
    obtain ⟨rfl, rfl⟩ := Prod.mk.inj (Option.some.inj h)
    exact Or.inl ⟨rfl, hlist, rfl⟩
  · rename_i freeEntry next hlist
    right
    split at h
    · simp at h
    · rename_i hmin
      dsimp only at h
      -- the consumed size, with a remainder that is too small added to it
      generalize hc : (if maximum > freeEntry.size then freeEntry.size else maximum) = c at h
      generalize hsmall : decide (0 < freeEntry.size - c ∧
        freeEntry.size - c < p.minimumFreeEntrySize) = tooSmall at h
      generalize hcons : (if tooSmall = true then c + (freeEntry.size - c) else c) = consumed at h
      have hle : c ≤ freeEntry.size ∧ min maximum freeEntry.size ≤ c := by
        rw [← hc]
        split <;> omega
      have hconsumed : c ≤ consumed ∧ consumed ≤ freeEntry.size := by
        rw [← hcons]
        split <;> omega
      have hrest : (if tooSmall = true then 0 else freeEntry.size - c) =
          freeEntry.size - consumed := by
        rw [← hcons]
        split <;> omega
      have htop : freeEntry.base + consumed + (freeEntry.size - consumed) = freeEntry.top := by
        simp only [Extent.top]
        omega
      rw [hrest, htop] at h
      refine ⟨freeEntry, next, consumed, ?_, by omega, ?_⟩
      · split at h
        · split at h <;> exact (Prod.mk.inj (Option.some.inj h)).2.symm
        · exact (Prod.mk.inj (Option.some.inj h)).2.symm
      · cases hrec : p.createFreeEntry (freeEntry.base + consumed) freeEntry.top with
        | some e =>
          obtain ⟨hbase, hetop, hepos, -⟩ := freeEntryIn_eq_some hrec
          simp only [Extent.top] at hetop
          have hesize : e.size = freeEntry.size - consumed := by omega
          rw [if_pos (by omega), hrec] at h
          obtain ⟨rfl, -⟩ := Prod.mk.inj (Option.some.inj h)
          refine ⟨hlist, by omega, by omega, by rw [hrec]; rfl, rfl, ?_, ?_, rfl⟩
          · simp only [hrec, Option.toList_some, totalSize_cons, totalSize_nil, hesize]
            omega
          · simp [hrec]
        | none =>
          rw [hrec] at h
          split at h
          · obtain ⟨rfl, -⟩ := Prod.mk.inj (Option.some.inj h)
            refine ⟨hlist, by omega, by omega, by rw [hrec]; rfl, rfl, ?_, ?_, rfl⟩
            · simp only [hrec, Option.toList_none, totalSize_nil]
              omega
            · simp [hrec]
          · obtain ⟨rfl, -⟩ := Prod.mk.inj (Option.some.inj h)
            refine ⟨hlist, by omega, by omega, by rw [hrec]; rfl, rfl, ?_, ?_, rfl⟩
            · simp only [hrec, Option.toList_none, totalSize_nil]
              omega
            · simp [hrec]

/-- The walk to the place of a new entry cuts the list in two. -/
theorem walk_append (l : List Extent) (x : ℕ) :
    l = (l.takeWhile fun e => e.base ≤ x) ++ l.dropWhile fun e => e.base ≤ x :=
  List.takeWhile_append_dropWhile.symm

/-- A range that is apart from the list may enter it. -/
theorem insert_ordered {l : List Extent} (hord : AddressOrdered l) {x : Extent} (hpos : 0 < x.size)
    (hap : ∀ e ∈ l, x.Apart e) :
    AddressOrdered ((l.takeWhile fun e => e.base ≤ x.base) ++
      ([x] ++ l.dropWhile fun e => e.base ≤ x.base)) := by
  refine AddressOrdered.insert (walk_append l x.base ▸ hord) hpos
    (fun a ha => le_of_mem_takeWhile ha) (fun b hb => (hord.lt_of_mem_dropWhile hb).le) ?_
  rwa [← walk_append]

/-- `recycleHeapChunk` puts the chunk into its place or gives it up. -/
theorem recycleHeapChunk_cases (p : Pool) (chunk : Extent) :
    (p.recycleHeapChunk chunk.base chunk.top).1 = p ∨
    ∃ xs ys, p.heapFreeList = xs ++ ys ∧ (∀ a ∈ xs, a.base ≤ chunk.base) ∧
      p.createFreeEntry chunk.base chunk.top = some chunk ∧
      (p.recycleHeapChunk chunk.base chunk.top).1 = { p with
        heapFreeList := xs ++ chunk :: ys
        freeMemorySize := p.freeMemorySize + chunk.size
        freeEntryCount := p.freeEntryCount + 1 } ∧
      (AddressOrdered p.heapFreeList → (∀ e ∈ p.heapFreeList, chunk.Apart e) →
        AddressOrdered (xs ++ ([chunk] ++ ys))) := by
  cases hrec : p.createFreeEntry chunk.base chunk.top with
  | none =>
    left
    simp only [recycleHeapChunk, hrec]
  | some e =>
    right
    obtain ⟨hbase, htop, hpos, hmin⟩ := freeEntryIn_eq_some hrec
    have he : e = chunk := by
      simp only [Extent.top] at htop
      exact Extent.ext hbase (by omega)
    subst he
    refine ⟨_, _, walk_append p.heapFreeList e.base, fun a ha => le_of_mem_takeWhile ha, rfl, ?_,
      fun hord hap => insert_ordered hord hpos hap⟩
    have hsize : e.top - e.base = e.size := Nat.add_sub_cancel_left ..
    simp only [recycleHeapChunk, hrec, hsize]

/-- How `expandWithRange` changes a list `xs ++ ys` when the range belongs between the two
parts: it grows the entry before the range, or the one behind it, or is an entry
of its own. -/
inductive Expanded (p : Pool) (range : Extent) (canCoalesce : Bool) (xs ys : List Extent) :
    Pool → Prop where
  | fusedToPrevious {ws : List Extent} {prev : Extent} (hcan : canCoalesce = true)
      (hxs : xs = ws ++ [prev]) (htouch : prev.top = range.base) :
      Expanded p range canCoalesce xs ys { p with
        heapFreeList := ws ++ ⟨prev.base, prev.size + range.size⟩ :: ys
        freeMemorySize := p.freeMemorySize + range.size }
  | fusedToNext {next : Extent} {zs : List Extent} (hcan : canCoalesce = true)
      (hfree : ∀ ws prev, xs = ws ++ [prev] → prev.top ≠ range.base)
      (hys : ys = next :: zs) (htouch : range.top = next.base) :
      Expanded p range canCoalesce xs ys { p with
        heapFreeList := xs ++ ⟨range.base, range.size + next.size⟩ :: zs
        freeMemorySize := p.freeMemorySize + range.size }
  | inserted : Expanded p range canCoalesce xs ys (p.insertRange xs ys range)

theorem fuseToNext_expanded {range : Extent} {canCoalesce : Bool} {xs ys : List Extent}
    (hcan : canCoalesce = true) (hfree : ∀ ws prev, xs = ws ++ [prev] → prev.top ≠ range.base) :
    Expanded p range canCoalesce xs ys (p.fuseToNext xs ys range) := by
  cases ys with
  | nil => exact .inserted
  | cons next zs =>
    simp only [fuseToNext]
    split
    case isTrue htouch => exact .fusedToNext hcan hfree rfl htouch
    case isFalse => exact .inserted

/-- `expandWithRange` puts the range into its place or gives it up. -/
theorem expandWithRange_cases (p : Pool) (range : Extent) (canCoalesce : Bool) :
    p.expandWithRange range canCoalesce = p ∨
    ∃ xs ys, p.heapFreeList = xs ++ ys ∧ (∀ a ∈ xs, a.base ≤ range.base) ∧ 0 < range.size ∧
      p.minimumFreeEntrySize ≤ range.size ∧
      Expanded p range canCoalesce xs ys (p.expandWithRange range canCoalesce) ∧
      (AddressOrdered p.heapFreeList → (∀ e ∈ p.heapFreeList, range.Apart e) →
        AddressOrdered (xs ++ ([range] ++ ys))) := by
  unfold expandWithRange
  by_cases hzero : range.size = 0
  · rw [if_pos hzero]
    exact Or.inl rfl
  by_cases hsmall : range.size < p.minimumFreeEntrySize
  · rw [if_neg hzero, if_pos hsmall]
    exact Or.inl rfl
  rw [if_neg hzero, if_neg hsmall]
  refine Or.inr ⟨_, _, walk_append p.heapFreeList range.base, fun a ha => le_of_mem_takeWhile ha,
    by omega, by omega, ?_, fun hord hap => insert_ordered hord (by omega) hap⟩
  dsimp only
  split
  case isFalse => exact .inserted
  case isTrue hcan =>
    split
    case h_1 prev hlast =>
      have hprev := List.dropLast_append_getLast? prev hlast
      split
      case isTrue htouch => exact .fusedToPrevious hcan hprev.symm htouch.symm
      case isFalse hnot =>
        refine fuseToNext_expanded hcan fun ws prev' hws htouch => hnot ?_
        rw [hws, List.getLast?_concat, Option.some.injEq] at hlast
        rw [← htouch, hlast]
    case h_2 hlast =>
      refine fuseToNext_expanded hcan fun ws prev hws => ?_
      rw [hws] at hlast
      simp at hlast

end OMR.GC.Pool
