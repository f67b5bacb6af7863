import OMR.GC.FreeHeaders

/-!
# `removeFreeEntriesWithinRange` on the headers

The walk over the links of the free list that cuts a range out of it: what is left of an entry
below or above the range stays on the list, what lies in the range goes to the list that is
returned. The list it leaves, the list it returns and the counters are those of the model on
lists of entries.
-/

namespace OMR.GC

open OMR.Lib

/-- The fields of a pool that the removal works on. -/
structure LinkedPool where
  minimumFreeEntrySize : ℕ
  headers : Headers
  heapFreeList : Option ℕ
  freeMemorySize : ℤ
  freeEntryCount : ℤ

/-- The list that is returned: its head, its tail, its length and its size. -/
structure RetList where
  head : Option ℕ
  tail : Option ℕ
  memoryCount : ℕ
  memorySize : ℕ
deriving DecidableEq

/-- Where the removal stands. -/
structure Removing where
  headers : Headers
  heapFreeList : Option ℕ
  previousFreeEntry : Option ℕ
  ret : RetList
  removeSize : ℤ
  removeCount : ℤ

/-- `appendToList`, and what a caller does where it succeeds. -/
def Removing.appendToList (addrBase addrTop minimumSize : ℕ) (s : Removing) : Option Removing :=
  let filled := s.headers.fillWithHoles addrBase (addrTop - addrBase)
  if filled.2 ∧ minimumSize ≤ addrTop - addrBase then
    let ret : RetList := { s.ret with
      tail := some addrBase
      memoryCount := s.ret.memoryCount + 1
      memorySize := s.ret.memorySize + (addrTop - addrBase) }
    match s.ret.head, s.ret.tail with
    | none, _ => some { s with headers := filled.1, ret := { ret with head := some addrBase } }
    | some _, none => none
    | some _, some freeListTail =>
      if freeListTail < addrBase then
        (filled.1.setNext freeListTail (some addrBase)).map fun m => { s with headers := m, ret }
      else none
  else some { s with headers := filled.1 }

/-- Bytes of an entry that are not returned become an entry, linked to the one before them. -/
def Removing.keep (minimumFreeEntrySize addrBase addrTop : ℕ) (next : Option ℕ) (s : Removing) :
    Option (Removing × Bool) :=
  (s.headers.createFreeEntry minimumFreeEntrySize addrBase addrTop s.previousFreeEntry next).map
    fun (m, made) =>
      if made then
        ({ s with
          headers := m
          heapFreeList := if s.previousFreeEntry.isNone then some addrBase else s.heapFreeList
          removeSize := s.removeSize - (addrTop - addrBase)
          removeCount := s.removeCount - 1 }, true)
      else ({ s with headers := m }, false)

/-- Leading and trailing bytes of the first entry, which is then the previous one. -/
def Removing.keepPart (minimumFreeEntrySize addrBase addrTop : ℕ) (s : Removing) :
    Option Removing :=
  (s.keep minimumFreeEntrySize addrBase addrTop none).map fun (s, made) =>
    if made then { s with previousFreeEntry := some addrBase } else s

/-- The loop that finds the first entry in the range. -/
def findInRange (m : Headers) (lowAddress : ℕ) :
    ℕ → Option ℕ → Option ℕ → Option (Option ℕ × Option ℕ)
  | 0, _, _ => none
  | _ + 1, previous, none => some (previous, none)
  | fuel + 1, previous, some current => (m current).bind fun header =>
    if lowAddress ≤ current ∨ lowAddress < current + header.size then
      some (previous, some current)
    else findInRange m lowAddress fuel (some current) header.next

/-- The loop over the entries that lie in the range with all their bytes. -/
def Removing.takeWhole (highAddress minimumSize : ℕ) :
    ℕ → Option ℕ → Removing → Option (Option ℕ × Removing)
  | 0, _, _ => none
  | _ + 1, none, s => some (none, s)
  | fuel + 1, some current, s => (s.headers current).bind fun header =>
    if current + header.size ≤ highAddress then
      (s.appendToList current (current + header.size) minimumSize).bind fun s =>
        (s.headers current).bind fun written =>
          takeWhole highAddress minimumSize fuel header.next { s with
            removeSize := s.removeSize + written.size
            removeCount := s.removeCount + 1 }
    else some (some current, s)

/-- The last entry, if it reaches out of the range; with `tailFreeEntry`. -/
def Removing.cutLast (minimumFreeEntrySize highAddress minimumSize : ℕ) (current : Option ℕ)
    (s : Removing) : Option (Option ℕ × Removing) :=
  match current with
  | none => some (none, s)
  | some current =>
    if current < highAddress then (s.headers current).bind fun header =>
      let s := { s with
        removeSize := s.removeSize + header.size
        removeCount := s.removeCount + 1 }
      (s.keep minimumFreeEntrySize highAddress (current + header.size) header.next).bind
        fun (s, made) =>
          (s.appendToList current highAddress minimumSize).map fun s =>
            (if made then some highAddress else header.next, s)
    else some (some current, s)

/-- The whole removal from the first entry in the range on. -/
def Removing.cut (minimumFreeEntrySize lowAddress highAddress minimumSize fuel current : ℕ)
    (header : FreeHeader) (s : Removing) : Option Removing :=
  let currentFreeEntryTop := current + header.size
  let s := { s with removeSize := header.size, removeCount := 1 }
  (if current < lowAddress then s.keepPart minimumFreeEntrySize current lowAddress else some s).bind
    fun s =>
      (if highAddress < currentFreeEntryTop then
        s.keepPart minimumFreeEntrySize highAddress currentFreeEntryTop else some s).bind fun s =>
          let baseAddr := if current < lowAddress then lowAddress else current
          let topAddr := if highAddress < currentFreeEntryTop then highAddress
            else currentFreeEntryTop
          (s.appendToList baseAddr topAddr minimumSize).bind fun s =>
            (s.takeWhole highAddress minimumSize fuel header.next).bind fun (current, s) =>
              (s.cutLast minimumFreeEntrySize highAddress minimumSize current).bind
                fun (tailFreeEntry, s) =>
                  (s.headers.link s.previousFreeEntry tailFreeEntry).map fun m => { s with
                    headers := m
                    heapFreeList := if s.previousFreeEntry.isNone then tailFreeEntry
                      else s.heapFreeList }

/-- `removeFreeEntriesWithinRange`, with enough fuel for the entries of the list. -/
def LinkedPool.removeFreeEntriesWithinRange (fuel : ℕ) (p : LinkedPool)
    (lowAddress highAddress minimumSize : ℕ) : Option (LinkedPool × Bool × RetList) :=
  let ret : RetList := ⟨none, none, 0, 0⟩
  (findInRange p.headers lowAddress fuel none p.heapFreeList).bind fun
    | (_, none) => some (p, false, ret)
    | (previous, some current) =>
      if highAddress ≤ current then some (p, false, ret)
      else (p.headers current).bind fun header =>
        (Removing.cut p.minimumFreeEntrySize lowAddress highAddress minimumSize fuel current header
          ⟨p.headers, p.heapFreeList, previous, ret, 0, 0⟩).map fun s =>
            ({ p with
              headers := s.headers
              heapFreeList := s.heapFreeList
              freeMemorySize := p.freeMemorySize - s.removeSize
              freeEntryCount := p.freeEntryCount - s.removeCount }, true, s.ret)

theorem lastOf_append_toList {minimum base top : ℕ} (l : List Extent)
    (h : (freeEntryIn minimum base top).isSome) :
    lastOf (l ++ (freeEntryIn minimum base top).toList) = some base := by
  obtain ⟨e, he⟩ := Option.isSome_iff_exists.1 h
  rw [he, lastOf, Option.toList_some, List.getLast?_concat]
  exact congrArg some (Pool.freeEntryIn_eq_some he).1

/-- An entry that is made of a range is the range. -/
theorem freeEntryIn_eq {minimum base top : ℕ} {e : Extent} (h : freeEntryIn minimum base top = some e) :
    e = ⟨base, top - base⟩ ∧ sizeofFreeHeader ≤ top - base := by
  rw [freeEntryIn] at h
  split at h
  · next hfits => exact ⟨(Option.some_inj.1 h).symm, hfits.1⟩
  · cases h

/-- The entries that are kept, those that are returned, and those still on the list. -/
structure Removing.Holds (s : Removing) (kept ret rest : List Extent) : Prop where
  entries : Entries (kept ++ (ret ++ rest))
  kept_linked : ∃ after, Linked s.headers after kept
  head_eq : kept ≠ [] → s.heapFreeList = firstOf none kept
  previous_eq : s.previousFreeEntry = lastOf kept
  ret_linked : Linked s.headers none ret
  ret_eq : s.ret = ⟨firstOf none ret, lastOf ret, ret.length, totalSize ret⟩
  rest_linked : Linked s.headers none rest

section Stages

variable {s : Removing} {kept ret rest : List Extent} {base top : ℕ}

/-- A range that is apart from all entries may become one. -/
theorem Entries.insert (minimum : ℕ) {l l' : List Extent} (h : Entries (l ++ l'))
    (hapart : ∀ e ∈ l ++ l', e.Apart ⟨base, top - base⟩) :
    Entries (l ++ ((freeEntryIn minimum base top).toList ++ l')) := by
  cases hentry : freeEntryIn minimum base top with
  | none => exact h
  | some e =>
    obtain ⟨rfl, hsize⟩ := freeEntryIn_eq hentry
    have hnew : Entries (⟨base, top - base⟩ :: (l ++ l')) := by
      refine ⟨fun e he => ?_, List.pairwise_cons.2 ⟨fun e he => (hapart e he).symm, h.apart⟩⟩
      rcases List.mem_cons.1 he with rfl | he
      · exact hsize
      · exact h.size_le e he
    exact hnew.perm List.perm_middle.symm

theorem Removing.Holds.apart (h : s.Holds kept ret rest) :
    Entries kept ∧ Entries ret ∧ Entries rest ∧ (∀ a ∈ kept, ∀ b ∈ ret ++ rest, a.Apart b) ∧
      ∀ a ∈ ret, ∀ b ∈ rest, a.Apart b := by
  obtain ⟨hkept, hrets, hcross⟩ := Entries.append_iff.1 h.entries
  obtain ⟨hret, hrest, hcross'⟩ := Entries.append_iff.1 hrets
  exact ⟨hkept, hret, hrest, hcross, hcross'⟩

theorem Removing.keep_spec (minimum : ℕ) (next : Option ℕ) (h : s.Holds kept ret rest)
    (hle : base ≤ top) (hapart : ∀ e ∈ kept ++ (ret ++ rest), e.Apart ⟨base, top - base⟩)
    (hnext : ∀ n ∈ next, base < n) :
    ∃ s', s.keep minimum base top next = some (s', (freeEntryIn minimum base top).isSome) ∧
      Linked s'.headers next (kept ++ (freeEntryIn minimum base top).toList) ∧
      Linked s'.headers none ret ∧ Linked s'.headers none rest ∧
      s'.heapFreeList = (if (freeEntryIn minimum base top).isSome ∧ s.previousFreeEntry.isNone
        then some base else s.heapFreeList) ∧
      s'.previousFreeEntry = s.previousFreeEntry ∧ s'.ret = s.ret ∧
      s'.removeSize = s.removeSize - totalSize (freeEntryIn minimum base top).toList ∧
      s'.removeCount = s.removeCount - (freeEntryIn minimum base top).toList.length := by
  obtain ⟨hkept, hret, hrest, hcross, -⟩ := h.apart
  obtain ⟨after, hlinked⟩ := h.kept_linked
  obtain ⟨m', hcreate, hlinked', hother⟩ := Headers.createFreeEntry_spec hkept hlinked hle
    (fun e he => hapart e (List.mem_append_left _ he)) hnext
  rw [← h.previous_eq] at hcreate
  have hframe : ∀ e ∈ ret ++ rest, m' e.base = s.headers e.base := by
    intro e he
    have hsize : sizeofFreeHeader ≤ e.size := h.entries.size_le e (List.mem_append_right _ he)
    exact hother e hsize (hapart e (List.mem_append_right _ he)) fun k hk =>
      Entries.base_ne (hcross k hk e he) (hkept.size_le k hk) hsize
  have hret' := h.ret_linked.congr fun e he => hframe e (List.mem_append_left _ he)
  have hrest' := h.rest_linked.congr fun e he => hframe e (List.mem_append_right _ he)
  rw [keep, hcreate, Option.map_some]
  cases hentry : freeEntryIn minimum base top with
  | none =>
    rw [hentry] at hlinked'
    exact ⟨_, rfl, hlinked', hret', hrest', rfl, rfl, rfl, by simp, by simp⟩
  | some e =>
    obtain ⟨rfl, -⟩ := freeEntryIn_eq hentry
    rw [hentry] at hlinked'
    refine ⟨_, rfl, hlinked', hret', hrest', ?_, rfl, rfl, ?_, by simp⟩
    · simp
    · simp only [Option.toList_some, totalSize_cons, totalSize_nil]
      push_cast [Nat.cast_sub hle]
      ring

theorem Removing.keepPart_spec (minimum : ℕ) (h : s.Holds kept ret rest) (hle : base ≤ top)
    (hapart : ∀ e ∈ kept ++ (ret ++ rest), e.Apart ⟨base, top - base⟩) :
    ∃ s', s.keepPart minimum base top = some s' ∧
      s'.Holds (kept ++ (freeEntryIn minimum base top).toList) ret rest ∧
      s'.removeSize = s.removeSize - totalSize (freeEntryIn minimum base top).toList ∧
      s'.removeCount = s.removeCount - (freeEntryIn minimum base top).toList.length := by
  obtain ⟨s', hkeep, hlinked, hret, hrest, hhead, hprevious, hrets, hsize, hcount⟩ :=
    keep_spec minimum none h hle hapart (by simp)
  have hentries := h.entries.insert minimum hapart
  rw [← List.append_assoc] at hentries
  rw [keepPart, hkeep, Option.map_some]
  cases hentry : freeEntryIn minimum base top with
  | none =>
    rw [hentry] at hlinked hhead hsize hcount hentries
    rw [Option.toList_none, List.append_nil] at hlinked hentries ⊢
    refine ⟨s', rfl, ⟨hentries, ⟨none, hlinked⟩, fun hne => ?_, hprevious.trans h.previous_eq, hret,
      hrets.trans h.ret_eq, hrest⟩, hsize, hcount⟩
    rw [hhead, if_neg (by simp), h.head_eq hne]
  | some e =>
    rw [hentry] at hlinked hhead hsize hcount hentries
    refine ⟨_, rfl, ⟨hentries, ⟨none, hlinked⟩, fun _ => ?_, ?_, hret, hrets.trans h.ret_eq, hrest⟩,
      hsize, hcount⟩
    · change s'.heapFreeList = _
      rw [hhead, firstOf_append, h.previous_eq]
      obtain ⟨rfl, -⟩ := freeEntryIn_eq hentry
      cases kept with
      | nil => rfl
      | cons k kept =>
        have hsome : (lastOf (k :: kept)).isNone = false := by
          simp [lastOf]
        rw [hsome, if_neg (by simp), h.head_eq (List.cons_ne_nil _ _)]
        rfl
    · have := lastOf_append_toList kept (show (freeEntryIn minimum base top).isSome by rw [hentry]; rfl)
      rw [hentry] at this
      exact this.symm

theorem Removing.appendToList_spec (minimum base top : ℕ) (h : s.Holds kept ret rest)
    (hapart : ∀ e ∈ kept ++ (ret ++ rest), e.Apart ⟨base, top - base⟩)
    (hlt : ∀ e ∈ ret, e.base < base) :
    ∃ s', s.appendToList base top minimum = some s' ∧
      s'.Holds kept (ret ++ (freeEntryIn minimum base top).toList) rest ∧
      s'.removeSize = s.removeSize ∧ s'.removeCount = s.removeCount ∧
      (sizeofFreeHeader ≤ top - base → ∃ next, s'.headers base = some ⟨next, top - base⟩) := by
  obtain ⟨hkept, hret, hrest, hcross, hcross'⟩ := h.apart
  obtain ⟨after, hlinked⟩ := h.kept_linked
  have hframe : ∀ e ∈ kept ++ (ret ++ rest),
      (s.headers.fillWithHoles base (top - base)).1 e.base = s.headers e.base :=
    fun e he => Headers.fillWithHoles_of_apart (h.entries.size_le e he) (hapart e he)
  have hkept' := hlinked.congr fun e he => hframe e (List.mem_append_left _ he)
  have hret' := h.ret_linked.congr fun e he =>
    hframe e (List.mem_append_right _ (List.mem_append_left _ he))
  have hrest' := h.rest_linked.congr fun e he =>
    hframe e (List.mem_append_right _ (List.mem_append_right _ he))
  have hentries : Entries (kept ++ ((ret ++ (freeEntryIn minimum base top).toList) ++ rest)) := by
    have hassoc : ∀ l : List Extent, kept ++ ((ret ++ l) ++ rest) = (kept ++ ret) ++ (l ++ rest) := by
      intro l
      simp only [List.append_assoc]
    rw [hassoc]
    refine Entries.insert minimum ?_ ?_
    · rw [List.append_assoc]
      exact h.entries
    · rwa [List.append_assoc]
  have hwritten : sizeofFreeHeader ≤ top - base →
      s.headers.fillWithHoles base (top - base) =
        (Function.update (s.headers.clobber base sizeofFreeHeader) base (some ⟨none, top - base⟩),
          true) := fun hfits => if_neg (by omega)
  rw [appendToList]
  simp only []
  by_cases hfits : sizeofFreeHeader ≤ top - base ∧ minimum ≤ top - base
  · have hentry : freeEntryIn minimum base top = some ⟨base, top - base⟩ := if_pos hfits
    have hcreate : (s.headers.fillWithHoles base (top - base)).2 = true ∧ minimum ≤ top - base :=
      ⟨by rw [hwritten hfits.1], hfits.2⟩
    have hbase : (s.headers.fillWithHoles base (top - base)).1 base = some ⟨none, top - base⟩ := by
      rw [hwritten hfits.1]
      exact Function.update_self ..
    rw [if_pos hcreate, h.ret_eq]
    rw [hentry, Option.toList_some] at hentries ⊢
    have hne : ∀ e ∈ kept ++ (ret ++ rest), e.base ≠ base := fun e he =>
      Entries.base_ne (hapart e he) (h.entries.size_le e he) hfits.1
    rcases List.eq_nil_or_concat ret with rfl | ⟨front, r, rfl⟩
    · refine ⟨_, rfl, ⟨hentries, ⟨after, hkept'⟩, h.head_eq, h.previous_eq, ⟨hbase, trivial⟩, ?_,
        hrest'⟩, rfl, rfl, fun _ => ⟨none, hbase⟩⟩
      simp [lastOf]
    · rw [List.concat_eq_append] at hlt hret' hret hentries hcross hcross' hne ⊢
      have hhead : ∃ head, firstOf none (front ++ [r]) = some head := by
        cases front <;> exact ⟨_, rfl⟩
      have hlast : lastOf (front ++ [r]) = some r.base := by
        rw [lastOf, List.getLast?_concat, Option.map_some]
      obtain ⟨m', hlink, hlinkedRet, hother⟩ := Headers.link_spec hret hret' (some base)
      rw [hlast] at hlink
      obtain ⟨head, hhead⟩ := hhead
      have hset : (s.headers.fillWithHoles base (top - base)).1.setNext r.base (some base) = some m' :=
        hlink
      simp only [hhead, hlast]
      rw [if_pos (hlt r (by simp)), hset]
      have hsize : ∀ e ∈ front ++ [r], sizeofFreeHeader ≤ e.size := hret.size_le
      refine ⟨_, rfl, ⟨hentries, ⟨after, ?_⟩, h.head_eq, h.previous_eq, ?_, ?_, ?_⟩, rfl, rfl,
        fun _ => ?_⟩
      · refine hkept'.congr fun e he => hother e.base fun k hk => ?_
        have hk' : k ∈ (front ++ [r]) ++ rest := List.mem_append_left _ hk
        exact (Entries.base_ne (hcross e he k hk') (hkept.size_le e he) (hsize k hk)).symm
      · refine Linked.append_iff.2 ⟨hlinkedRet, ?_, trivial⟩
        have hfree : ∀ k ∈ front ++ [r], k.base ≠ base := fun k hk =>
          hne k (List.mem_append_right _ (List.mem_append_left _ hk))
        exact (hother base hfree).trans hbase
      · rw [firstOf_append, lastOf, List.getLast?_concat]
        have hfirst : firstOf (firstOf none [⟨base, top - base⟩]) (front ++ [r]) = some head := by
          rw [← hhead]
          cases front <;> rfl
        rw [hfirst]
        simp [Nat.add_assoc]
      · refine hrest'.congr fun e he => hother e.base fun k hk => ?_
        exact Entries.base_ne (hcross' k hk e he) (hsize k hk) (hrest.size_le e he)
      · have hfree : ∀ k ∈ front ++ [r], k.base ≠ base := fun k hk =>
          hne k (List.mem_append_right _ (List.mem_append_left _ hk))
        exact ⟨none, (hother base hfree).trans hbase⟩
  · have hentry : freeEntryIn minimum base top = none := if_neg hfits
    have hnocreate : ¬((s.headers.fillWithHoles base (top - base)).2 = true ∧
        minimum ≤ top - base) := by
      rintro ⟨hmade, hmin⟩
      rw [Headers.fillWithHoles] at hmade
      split at hmade
      · exact Bool.false_ne_true hmade
      · exact hfits ⟨by omega, hmin⟩
    rw [if_neg hnocreate]
    rw [hentry, Option.toList_none, List.append_nil] at hentries ⊢
    refine ⟨_, rfl, ⟨hentries, ⟨after, hkept'⟩, h.head_eq, h.previous_eq, hret', h.ret_eq, hrest'⟩,
      rfl, rfl, fun hsize => ⟨none, ?_⟩⟩
    change (s.headers.fillWithHoles base (top - base)).1 base = _
    rw [hwritten hsize]
    exact Function.update_self ..

theorem mem_freeEntryIn {minimum : ℕ} {e : Extent} (h : e ∈ (freeEntryIn minimum base top).toList) :
    e.base = base := by
  obtain ⟨rfl, -⟩ := freeEntryIn_eq (Option.mem_toList.1 h)
  rfl

/-- An entry leaves the list before its bytes are used. -/
theorem Removing.Holds.drop {e : Extent} (h : s.Holds kept ret (e :: rest)) :
    s.Holds kept ret rest ∧ sizeofFreeHeader ≤ e.size ∧
      (∀ x ∈ kept ++ (ret ++ rest), x.Apart e) ∧
      s.headers e.base = some ⟨firstOf none rest, e.size⟩ := by
  have hperm : (kept ++ (ret ++ e :: rest)).Perm (e :: (kept ++ (ret ++ rest))) := by
    rw [← List.append_assoc, ← List.append_assoc]
    exact List.perm_middle
  have hentries := h.entries.perm hperm
  refine ⟨⟨hentries.sublist (List.sublist_cons_self _ _), h.kept_linked, h.head_eq, h.previous_eq,
    h.ret_linked, h.ret_eq, h.rest_linked.2⟩, hentries.size_le e List.mem_cons_self, ?_,
    h.rest_linked.1⟩
  exact fun x hx => ((List.pairwise_cons.1 hentries.apart).1 x hx).symm

theorem Removing.takeWhole_spec (highAddress minimum : ℕ) {fuel : ℕ} (h : s.Holds kept ret rest)
    (hord : AddressOrdered rest) (hbelow : ∀ a ∈ ret, ∀ b ∈ rest, a.base < b.base)
    (hfuel : rest.length < fuel) :
    ∃ s', s.takeWhole highAddress minimum fuel (firstOf none rest) =
        some (firstOf none (rest.dropWhile fun e => e.top ≤ highAddress), s') ∧
      s'.Holds kept (ret ++ (rest.takeWhile fun e => e.top ≤ highAddress).filterMap
          fun e => freeEntryIn minimum e.base e.top)
        (rest.dropWhile fun e => e.top ≤ highAddress) ∧
      s'.removeSize = s.removeSize + totalSize (rest.takeWhile fun e => e.top ≤ highAddress) ∧
      s'.removeCount = s.removeCount + (rest.takeWhile fun e => e.top ≤ highAddress).length := by
  obtain ⟨fuel, rfl⟩ : ∃ n, fuel = n + 1 := ⟨fuel - 1, by omega⟩
  induction rest generalizing s ret fuel with
  | nil => exact ⟨s, rfl, by simpa using h, by simp, by simp⟩
  | cons e rest ih =>
    obtain ⟨hdrop, hsize, hapart, hheader⟩ := h.drop
    obtain ⟨hpos, hord', habove⟩ := AddressOrdered.cons_iff.1 hord
    rw [firstOf_cons, takeWhole, hheader, Option.bind_some]
    by_cases hwhole : e.top ≤ highAddress
    · have htop : e.base + e.size - e.base = e.size := by omega
      have hextent : (⟨e.base, e.base + e.size - e.base⟩ : Extent) = e := by rw [htop]
      obtain ⟨s₁, happend, hholds, hsize₁, hcount₁, hwritten⟩ :=
        appendToList_spec minimum e.base (e.base + e.size) hdrop (by rwa [hextent])
          fun a ha => hbelow a ha e List.mem_cons_self
      obtain ⟨next, hwritten⟩ := hwritten (by omega)
      have hnext : s₁.Holds kept (ret ++ (freeEntryIn minimum e.base e.top).toList) rest := hholds
      let s₂ : Removing := { s₁ with
        removeSize := s₁.removeSize + e.size
        removeCount := s₁.removeCount + 1 }
      have hholds₂ : s₂.Holds kept (ret ++ (freeEntryIn minimum e.base e.top).toList) rest :=
        ⟨hnext.entries, hnext.kept_linked, hnext.head_eq, hnext.previous_eq, hnext.ret_linked,
          hnext.ret_eq, hnext.rest_linked⟩
      have hbelow₂ : ∀ a ∈ ret ++ (freeEntryIn minimum e.base e.top).toList, ∀ b ∈ rest,
          a.base < b.base := by
        intro a ha b hb
        rcases List.mem_append.1 ha with ha | ha
        · exact hbelow a ha b (List.mem_cons_of_mem _ hb)
        · have := habove b hb
          rw [mem_freeEntryIn ha]
          simp only [Extent.top] at this
          omega
      obtain ⟨fuel, rfl⟩ : ∃ n, fuel = n + 1 := ⟨fuel - 1, by
        rw [List.length_cons] at hfuel
        omega⟩
      obtain ⟨s', hrun, hholds', hsize', hcount'⟩ := ih hholds₂ hord' hbelow₂ fuel (by
        rw [List.length_cons] at hfuel
        omega)
      have hin : decide (e.top ≤ highAddress) = true := by simpa using hwhole
      rw [List.takeWhile_cons, if_pos hin, List.dropWhile_cons, if_pos hin]
      refine ⟨s', ?_, ?_, ?_, ?_⟩
      · have hle : e.base + e.size ≤ highAddress := hwhole
        rw [if_pos hle, happend, Option.bind_some, hwritten, Option.bind_some, htop]
        exact hrun
      · have hlist : ret ++ (e :: rest.takeWhile fun e => decide (e.top ≤ highAddress)).filterMap
            (fun e => freeEntryIn minimum e.base e.top) =
            ret ++ (freeEntryIn minimum e.base e.top).toList ++
              (rest.takeWhile fun e => decide (e.top ≤ highAddress)).filterMap
                fun e => freeEntryIn minimum e.base e.top := by
          rw [List.filterMap_cons]
          cases freeEntryIn minimum e.base e.top <;> simp
        rw [hlist]
        exact hholds'
      · rw [hsize', totalSize_cons, Nat.cast_add]
        change s₁.removeSize + (e.size : ℤ) + _ = _
        rw [hsize₁]
        ring
      · rw [hcount', List.length_cons, Nat.cast_add]
        change s₁.removeCount + 1 + _ = _
        rw [hcount₁]
        push_cast
        ring
    · have hin : ¬decide (e.top ≤ highAddress) = true := by simpa using hwhole
      rw [List.takeWhile_cons, if_neg hin, List.dropWhile_cons, if_neg hin]
      refine ⟨s, if_neg hwhole, by simpa using h, by simp, by simp⟩

/-- What is apart from an entry is apart from a part of it. -/
theorem apart_part {x e : Extent} (h : x.Apart e) (hbase : e.base ≤ base) (htop : top ≤ e.top)
    (hle : base ≤ top) : x.Apart ⟨base, top - base⟩ := by
  refine h.mono x.within_refl ⟨hbase, ?_⟩
  simp only [Extent.top] at htop ⊢
  omega

theorem Removing.cutLast_spec (p : Pool) (highAddress minimum : ℕ) (h : s.Holds kept ret rest)
    (hord : AddressOrdered rest) (hbelow : ∀ a ∈ ret, ∀ b ∈ rest, a.base < b.base)
    (hreach : ∀ e ∈ rest.head?, highAddress < e.top) :
    ∃ s', s.cutLast p.minimumFreeEntrySize highAddress minimum (firstOf none rest) =
        some (firstOf none (p.cutLast highAddress minimum rest).1, s') ∧
      s'.Holds kept (ret ++ (p.cutLast highAddress minimum rest).2.1)
        (p.cutLast highAddress minimum rest).1 ∧
      s'.removeSize = s.removeSize + (p.cutLast highAddress minimum rest).2.2.1 ∧
      s'.removeCount = s.removeCount + (p.cutLast highAddress minimum rest).2.2.2 := by
  cases rest with
  | nil => exact ⟨s, rfl, by simpa [Pool.cutLast] using h, by simp [Pool.cutLast],
      by simp [Pool.cutLast]⟩
  | cons e rest =>
    by_cases hcut : e.base < highAddress
    swap
    · have hlist : p.cutLast highAddress minimum (e :: rest) = (e :: rest, [], 0, 0) :=
        if_neg hcut
      rw [hlist, List.append_nil]
      exact ⟨s, if_neg hcut, h, by simp, by simp⟩
    obtain ⟨hdrop, hsize, hapart, hheader⟩ := h.drop
    obtain ⟨-, -, habove⟩ := AddressOrdered.cons_iff.1 hord
    have htop : highAddress < e.top := hreach e rfl
    let started : Removing := { s with
      removeSize := s.removeSize + e.size
      removeCount := s.removeCount + 1 }
    have hstarted : started.Holds kept ret rest :=
      ⟨hdrop.entries, hdrop.kept_linked, hdrop.head_eq, hdrop.previous_eq, hdrop.ret_linked,
        hdrop.ret_eq, hdrop.rest_linked⟩
    have htrailing : ∀ x ∈ kept ++ (ret ++ rest), x.Apart ⟨highAddress, e.top - highAddress⟩ :=
      fun x hx => apart_part (hapart x hx) hcut.le le_rfl htop.le
    have hnext : ∀ n ∈ firstOf none rest, highAddress < n := by
      intro n hn
      cases rest with
      | nil => cases hn
      | cons b rest =>
        cases Option.some_inj.1 hn
        exact htop.trans_le (habove b List.mem_cons_self)
    obtain ⟨s₁, hkeep, hlinked, hret, hrest, hhead, hprevious, hrets, hsize₁, hcount₁⟩ :=
      keep_spec p.minimumFreeEntrySize (firstOf none rest) hstarted htop.le htrailing hnext
    generalize htrail : freeEntryIn p.minimumFreeEntrySize highAddress e.top = trailing at *
    obtain ⟨hkept', htrailing'⟩ := Linked.append_iff.1 hlinked
    -- What is left above the range now heads the rest of the list.
    have hholds₁ : s₁.Holds kept ret (trailing.toList ++ rest) := by
      refine ⟨?_, ⟨_, hkept'⟩, fun hne => ?_, hprevious.trans h.previous_eq, hret,
        hrets.trans h.ret_eq, Linked.append_iff.2 ⟨htrailing', hrest⟩⟩
      · have hentries : Entries ((kept ++ ret) ++ rest) := by
          rw [List.append_assoc]
          exact hdrop.entries
        have := hentries.insert p.minimumFreeEntrySize (by rwa [List.append_assoc])
        rwa [htrail, List.append_assoc] at this
      · obtain ⟨k, l, rfl⟩ := List.exists_cons_of_ne_nil hne
        have hsome : started.previousFreeEntry.isNone = false := by
          rw [hstarted.previous_eq]
          simp [lastOf]
        rw [hhead, hsome, if_neg (by simp)]
        exact h.head_eq hne
    have hmiddle : ∀ x ∈ kept ++ (ret ++ (trailing.toList ++ rest)),
        x.Apart ⟨e.base, highAddress - e.base⟩ := by
      intro x hx
      have hcases : x ∈ kept ++ (ret ++ rest) ∨ x ∈ trailing.toList := by
        simp only [List.mem_append] at hx ⊢
        tauto
      rcases hcases with hx | hx
      · exact apart_part (hapart x hx) le_rfl htop.le hcut.le
      · have hbase : x.base = highAddress := by
          rw [← htrail] at hx
          exact mem_freeEntryIn hx
        simp only [Extent.Apart, Extent.top]
        omega
    obtain ⟨s₂, happend, hholds₂, hsize₂, hcount₂, -⟩ := appendToList_spec minimum e.base highAddress
      hholds₁ hmiddle fun a ha => hbelow a ha e List.mem_cons_self
    have hlist : p.cutLast highAddress minimum (e :: rest) = (trailing.toList ++ rest,
        (freeEntryIn minimum e.base highAddress).toList,
        e.size - (if trailing.isSome then e.top - highAddress else 0),
        1 - (trailing.toList.length : ℤ)) := by
      simp only [Pool.cutLast, if_pos hcut, Pool.createFreeEntry, htrail]
    have htotal : totalSize trailing.toList = if trailing.isSome then e.top - highAddress else 0 := by
      rw [← htrail]
      exact Pool.totalSize_freeEntryIn _ _ _
    rw [hlist]
    refine ⟨s₂, ?_, hholds₂, ?_, ?_⟩
    · have htail : (if trailing.isSome = true then some highAddress else firstOf none rest) =
          firstOf none (trailing.toList ++ rest) := by
        rw [firstOf_append]
        cases htrailing : trailing with
        | none => rfl
        | some t =>
          rw [htrailing] at htrail
          obtain ⟨rfl, -⟩ := freeEntryIn_eq htrail
          rfl
      have hkeep' : started.keep p.minimumFreeEntrySize highAddress (e.base + e.size)
          (firstOf none rest) = some (s₁, trailing.isSome) := hkeep
      rw [firstOf_cons, cutLast, if_pos hcut, hheader, Option.bind_some]
      change (started.keep p.minimumFreeEntrySize highAddress (e.base + e.size)
        (firstOf none rest)).bind _ = _
      rw [hkeep', Option.bind_some]
      change (s₁.appendToList e.base highAddress minimum).map _ = _
      rw [happend, Option.map_some, htail]
    · have hle : (if trailing.isSome then e.top - highAddress else 0) ≤ e.size := by
        simp only [Extent.top] at htop ⊢
        split <;> omega
      rw [hsize₂, hsize₁, htotal, Nat.cast_sub hle]
      change s.removeSize + (e.size : ℤ) - _ = _
      ring
    · rw [hcount₂, hcount₁]
      change s.removeCount + 1 - _ = _
      ring

end Stages

theorem lastOf_append_cons (l : List Extent) (e : Extent) (l' : List Extent) :
    lastOf (l ++ e :: l') = lastOf (e :: l') := by
  rw [lastOf, lastOf, List.getLast?_append_of_ne_nil _ (List.cons_ne_nil _ _)]

theorem findInRange_spec {m : Headers} {l : List Extent} (lowAddress : ℕ) {fuel : ℕ}
    (h : Linked m none l) (hfuel : l.length < fuel) (before : List Extent) :
    findInRange m lowAddress fuel (lastOf before) (firstOf none l) =
      some (lastOf (before ++ l.takeWhile fun e => ¬(lowAddress ≤ e.base ∨ lowAddress < e.top)),
        firstOf none (l.dropWhile fun e => ¬(lowAddress ≤ e.base ∨ lowAddress < e.top))) := by
  obtain ⟨fuel, rfl⟩ : ∃ n, fuel = n + 1 := ⟨fuel - 1, by omega⟩
  induction l generalizing before fuel with
  | nil => simp [findInRange]
  | cons e l ih =>
    rw [firstOf_cons, findInRange, h.1, Option.bind_some]
    by_cases hin : lowAddress ≤ e.base ∨ lowAddress < e.top
    · have hstop : ¬decide (¬(lowAddress ≤ e.base ∨ lowAddress < e.top)) = true := by
        simpa only [decide_eq_true_eq, not_not] using hin
      have hin' : lowAddress ≤ e.base ∨ lowAddress < e.base + e.size := hin
      rw [if_pos hin', List.takeWhile_cons, if_neg hstop, List.dropWhile_cons, if_neg hstop,
        List.append_nil, firstOf_cons]
    · have hpass : decide (¬(lowAddress ≤ e.base ∨ lowAddress < e.top)) = true := by simpa using hin
      have hin' : ¬(lowAddress ≤ e.base ∨ lowAddress < e.base + e.size) := hin
      obtain ⟨fuel, rfl⟩ : ∃ n, fuel = n + 1 := ⟨fuel - 1, by
        rw [List.length_cons] at hfuel
        omega⟩
      have hlast : lastOf (before ++ [e]) = some e.base := lastOf_append_cons before e []
      have hnext := ih h.2 (before ++ [e]) fuel (by
        rw [List.length_cons] at hfuel
        omega)
      rw [hlast] at hnext
      rw [if_neg hin', List.takeWhile_cons, if_pos hpass, List.dropWhile_cons, if_pos hpass, hnext,
        List.append_assoc]
      rfl

/-- The free list of a pool in memory: address ordered entries, linked and `NULL`-terminated. -/
structure LinkedPool.Lists (lp : LinkedPool) (l : List Extent) : Prop where
  linked : Linked lp.headers none l
  head_eq : lp.heapFreeList = firstOf none l
  ordered : AddressOrdered l
  size_le : ∀ e ∈ l, sizeofFreeHeader ≤ e.size

/-- The fields of a pool in memory. -/
structure LinkedPool.Represents (lp : LinkedPool) (p : Pool) : Prop where
  lists : lp.Lists p.heapFreeList
  minimum_eq : lp.minimumFreeEntrySize = p.minimumFreeEntrySize
  freeMemorySize_eq : lp.freeMemorySize = p.freeMemorySize
  freeEntryCount_eq : lp.freeEntryCount = p.freeEntryCount

/-- A returned list in memory: `NULL`-terminated, with its tail, its length and its size. -/
structure RetList.Lists (ret : RetList) (m : Headers) (l : List Extent) : Prop where
  linked : Linked m none l
  head_eq : ret.head = firstOf none l
  tail_eq : ret.tail = lastOf l
  memoryCount_eq : ret.memoryCount = l.length
  memorySize_eq : ret.memorySize = totalSize l

theorem Entries.of_addressOrdered {l : List Extent} (h : AddressOrdered l)
    (hsize : ∀ e ∈ l, sizeofFreeHeader ≤ e.size) : Entries l :=
  ⟨hsize, h.apart.imp Or.inl⟩

/-- The last link is set, from the entry before the range to the one behind it. -/
theorem Removing.Holds.finish {s : Removing} {kept ret rest : List Extent}
    (h : s.Holds kept ret rest) : ∃ m', s.headers.link s.previousFreeEntry (firstOf none rest) =
      some m' ∧ Linked m' none (kept ++ rest) ∧ Linked m' none ret ∧
      (if s.previousFreeEntry.isNone then firstOf none rest else s.heapFreeList) =
        firstOf none (kept ++ rest) := by
  obtain ⟨hkept, hret, hrest, hcross, -⟩ := h.apart
  obtain ⟨after, hlinked⟩ := h.kept_linked
  obtain ⟨m', hlink, hlinked', hother⟩ := Headers.link_spec hkept hlinked (firstOf none rest)
  have hframe : ∀ e ∈ ret ++ rest, m' e.base = s.headers e.base := by
    intro e he
    have hsize : sizeofFreeHeader ≤ e.size := h.entries.size_le e (List.mem_append_right _ he)
    exact hother e.base fun k hk =>
      Entries.base_ne (hcross k hk e he) (hkept.size_le k hk) hsize
  refine ⟨m', by rw [h.previous_eq, hlink], Linked.append_iff.2 ⟨hlinked', ?_⟩, ?_, ?_⟩
  · exact h.rest_linked.congr fun e he => hframe e (List.mem_append_right _ he)
  · exact h.ret_linked.congr fun e he => hframe e (List.mem_append_left _ he)
  · rw [h.previous_eq, firstOf_append]
    cases kept with
    | nil => rfl
    | cons k kept =>
      have hsome : (lastOf (k :: kept)).isNone = false := by simp [lastOf]
      rw [hsome, if_neg (by simp), h.head_eq (List.cons_ne_nil _ _)]
      rfl

/-- Bytes outside of the range, if there are any. -/
theorem Removing.keepPart_if (outside : Prop) [Decidable outside] (minimum base top : ℕ)
    {s : Removing} {kept ret rest : List Extent} (h : s.Holds kept ret rest)
    (hle : outside → base ≤ top)
    (hapart : outside → ∀ e ∈ kept ++ (ret ++ rest), e.Apart ⟨base, top - base⟩) :
    let part := if outside then freeEntryIn minimum base top else none
    ∃ s', (if outside then s.keepPart minimum base top else some s) = some s' ∧
      s'.Holds (kept ++ part.toList) ret rest ∧
      s'.removeSize = s.removeSize - totalSize part.toList ∧
      s'.removeCount = s.removeCount - part.toList.length := by
  intro part
  by_cases hout : outside
  · have hpart : part = freeEntryIn minimum base top := if_pos hout
    rw [if_pos hout, hpart]
    exact keepPart_spec minimum h (hle hout) (hapart hout)
  · have hpart : part = none := if_neg hout
    rw [if_neg hout, hpart, Option.toList_none, List.append_nil]
    exact ⟨s, rfl, h, by simp, by simp⟩

/-- The removal from the first entry in the range on. -/
theorem Removing.cut_spec (p : Pool) (minimum : ℕ) {m : Headers} {head : Option ℕ}
    {previous next : List Extent} {current : Extent} {lowAddress highAddress fuel : ℕ}
    (hlinked : Linked m none (previous ++ current :: next))
    (hhead : head = firstOf none (previous ++ current :: next))
    (hord : AddressOrdered (previous ++ current :: next))
    (hsize : ∀ e ∈ previous ++ current :: next, sizeofFreeHeader ≤ e.size)
    (hrange : lowAddress < highAddress) (hlow : lowAddress ≤ current.base ∨ lowAddress < current.top)
    (hhigh : current.base < highAddress) (hfuel : next.length < fuel) :
    let leading := if current.base < lowAddress then p.createFreeEntry current.base lowAddress
      else none
    let trailing := if highAddress < current.top then p.createFreeEntry highAddress current.top
      else none
    let baseAddr := if current.base < lowAddress then lowAddress else current.base
    let topAddr := if highAddress < current.top then highAddress else current.top
    let whole := next.takeWhile fun e => e.top ≤ highAddress
    let last := p.cutLast highAddress minimum (next.dropWhile fun e => e.top ≤ highAddress)
    let retList := (freeEntryIn minimum baseAddr topAddr).toList ++
      whole.filterMap (fun e => freeEntryIn minimum e.base e.top) ++ last.2.1
    let list := previous ++ (leading.toList ++ trailing.toList ++ last.1)
    ∃ s : Removing, cut p.minimumFreeEntrySize lowAddress highAddress minimum fuel current.base
        ⟨firstOf none next, current.size⟩ ⟨m, head, lastOf previous, ⟨none, none, 0, 0⟩, 0, 0⟩ =
          some s ∧
      Linked s.headers none list ∧ Linked s.headers none retList ∧
      s.heapFreeList = firstOf none list ∧
      s.ret = ⟨firstOf none retList, lastOf retList, retList.length, totalSize retList⟩ ∧
      s.removeSize = current.size - totalSize leading.toList - totalSize trailing.toList +
        totalSize whole + last.2.2.1 ∧
      s.removeCount = 1 - leading.toList.length - trailing.toList.length + whole.length +
        last.2.2.2 := by
  intro leading trailing baseAddr topAddr whole last retList list
  let started : Removing := ⟨m, head, lastOf previous, ⟨none, none, 0, 0⟩, current.size, 1⟩
  obtain ⟨hprevious, hcurrent⟩ := Linked.append_iff.1 hlinked
  have hstarted : started.Holds previous [] (current :: next) := by
    refine ⟨Entries.of_addressOrdered hord hsize, ⟨_, hprevious⟩, fun hne => ?_, rfl, trivial, rfl, hcurrent⟩
    obtain ⟨k, l, rfl⟩ := List.exists_cons_of_ne_nil hne
    exact hhead
  obtain ⟨hheld, -, hcurrentApart, -⟩ := hstarted.drop
  have hcurrentPos : 0 < current.size := hord.size_pos current (by simp)
  obtain ⟨-, hnextOrd, habove⟩ := AddressOrdered.cons_iff.1 hord.right
  have htop : current.top = current.base + current.size := rfl
  have hbaseAddr : current.base ≤ baseAddr ∧ lowAddress ≤ baseAddr ∧ baseAddr < highAddress ∧
      baseAddr < current.top := by
    simp only [baseAddr]
    split <;> omega
  have htopAddr : topAddr ≤ current.top ∧ baseAddr < topAddr := by
    simp only [topAddr]
    split <;> omega
  -- The leading bytes of the first entry, and the trailing ones.
  obtain ⟨s₁, hlead, hheld₁, hsize₁, hcount₁⟩ := keepPart_if (current.base < lowAddress)
    p.minimumFreeEntrySize current.base lowAddress hheld (fun h => h.le) fun h x hx =>
      apart_part (hcurrentApart x hx) le_rfl (by omega) h.le
  have hleading : ∀ x ∈ leading.toList, x.top ≤ baseAddr ∧ x.base = current.base := by
    intro x hx
    simp only [leading] at hx
    split at hx
    · next hlt =>
      obtain ⟨rfl, -⟩ := freeEntryIn_eq (Option.mem_toList.1 hx)
      refine ⟨?_, rfl⟩
      simp only [Extent.top]
      omega
    · cases hx
  have hpart : ∀ {base top : ℕ}, baseAddr ≤ base → base ≤ top → top ≤ current.top →
      ∀ x ∈ (previous ++ leading.toList) ++ ([] ++ next), x.Apart ⟨base, top - base⟩ := by
    intro base top hbase hle htop x hx
    have hcases : x ∈ previous ++ ([] ++ next) ∨ x ∈ leading.toList := by
      simp only [List.mem_append] at hx ⊢
      tauto
    rcases hcases with hx | hx
    · exact apart_part (hcurrentApart x hx) (hbaseAddr.1.trans hbase) htop hle
    · exact Or.inl ((hleading x hx).1.trans hbase)
  obtain ⟨s₂, htrail, hheld₂, hsize₂, hcount₂⟩ := keepPart_if (highAddress < current.top)
    p.minimumFreeEntrySize highAddress current.top hheld₁ (fun h => h.le) fun h =>
      hpart (by omega) h.le le_rfl
  have htrailing : ∀ x ∈ trailing.toList, topAddr ≤ x.base := by
    intro x hx
    simp only [trailing] at hx
    split at hx
    · next hlt =>
      obtain ⟨rfl, -⟩ := freeEntryIn_eq (Option.mem_toList.1 hx)
      simp only [topAddr, if_pos hlt, le_refl]
    · cases hx
  -- What lies between them is returned.
  obtain ⟨s₃, hfirst, hheld₃, hsize₃, hcount₃, -⟩ := appendToList_spec minimum baseAddr topAddr
    hheld₂ (by
      intro x hx
      have hcases : x ∈ (previous ++ leading.toList) ++ ([] ++ next) ∨ x ∈ trailing.toList := by
        simp only [List.mem_append] at hx ⊢
        tauto
      rcases hcases with hx | hx
      · exact hpart le_rfl htopAddr.2.le htopAddr.1 x hx
      · refine Or.inr ?_
        have := htrailing x hx
        simp only [Extent.top]
        omega) (by simp)
  rw [List.nil_append] at hheld₃
  have hbelow : ∀ a ∈ (freeEntryIn minimum baseAddr topAddr).toList, ∀ b ∈ next, a.base < b.base := by
    intro a ha b hb
    have := habove b hb
    rw [mem_freeEntryIn ha]
    omega
  obtain ⟨s₄, hwhole, hheld₄, hsize₄, hcount₄⟩ := takeWhole_spec highAddress minimum hheld₃ hnextOrd
    hbelow hfuel
  have hsplit : next = whole ++ next.dropWhile fun e => e.top ≤ highAddress :=
    List.takeWhile_append_dropWhile.symm
  have hdropOrd : AddressOrdered (next.dropWhile fun e => e.top ≤ highAddress) := by
    rw [hsplit] at hnextOrd
    exact hnextOrd.right
  obtain ⟨s₅, hlast, hheld₅, hsize₅, hcount₅⟩ := cutLast_spec p highAddress minimum hheld₄ hdropOrd
    (by
      intro a ha b hb
      rcases List.mem_append.1 ha with ha | ha
      · exact hbelow a ha b ((List.dropWhile_sublist _).subset hb)
      · obtain ⟨e, he, hea⟩ := List.mem_filterMap.1 ha
        obtain ⟨rfl, -⟩ := freeEntryIn_eq hea
        rw [hsplit] at hnextOrd
        have : e.base < b.base := hnextOrd.cut_lt he hb
        exact this)
    (by
      intro e he
      cases hrest : next.dropWhile fun e => decide (e.top ≤ highAddress) with
      | nil =>
        rw [hrest] at he
        cases he
      | cons a rest =>
        rw [hrest] at he
        cases Option.some_inj.1 he
        simpa using not_of_dropWhile_eq_cons hrest)
  obtain ⟨m', hlink, hlinked', hret', hhead'⟩ := hheld₅.finish
  have hlist : previous ++ leading.toList ++ trailing.toList ++ last.1 = list := by
    simp only [list, List.append_assoc]
  refine ⟨{ s₅ with
    headers := m'
    heapFreeList := if s₅.previousFreeEntry.isNone then firstOf none last.1 else s₅.heapFreeList },
    ?_, ?_, hret', ?_, hheld₅.ret_eq, ?_, ?_⟩
  · rw [cut]
    change (ite _ (started.keepPart _ _ _) (some started)).bind _ = _
    rw [hlead, Option.bind_some, htop.symm, htrail, Option.bind_some]
    change (s₂.appendToList baseAddr topAddr minimum).bind _ = _
    rw [hfirst, Option.bind_some, hwhole, Option.bind_some]
    change (s₄.cutLast _ _ _ _).bind _ = _
    rw [hlast, Option.bind_some]
    change (s₅.headers.link _ _).map _ = _
    rw [hlink, Option.map_some]
  · rw [← hlist]
    exact hlinked'
  · rw [← hlist]
    exact hhead'
  · change s₅.removeSize = _
    rw [hsize₅, hsize₄, hsize₃, hsize₂, hsize₁]
    rfl
  · change s₅.removeCount = _
    rw [hcount₅, hcount₄, hcount₃, hcount₂, hcount₁]
    rfl

end OMR.GC
