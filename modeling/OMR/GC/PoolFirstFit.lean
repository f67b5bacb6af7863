import OMR.GC.PoolTransitions

/-!
# Hints and first fit

While memory is only taken from the pool, the search that begins at a hint finds
what a search of the whole list would find: the first entry that is large enough.
The invariant behind this is that no entry up to the address of a hint is larger
than the size the hint records.
-/

namespace OMR.GC.Pool

open OMR.Lib

/-- The address of the first entry that is large enough. -/
def firstFit (size : ℕ) (list : List Extent) : Option ℕ :=
  (list.find? fun e => size ≤ e.size).map Extent.base

/-- The list without the first `size` bytes of the first entry that is large enough. -/
def withoutFirstFit (minimum size : ℕ) : List Extent → List Extent
  | [] => []
  | e :: rest =>
    if e.size < size then e :: withoutFirstFit minimum size rest
    else (freeEntryIn minimum (e.base + size) e.top).toList ++ rest

variable {size minimum : ℕ} {xs next : List Extent} {current : Extent}

theorem firstFit_of_small (h : ∀ e ∈ xs, e.size < size) : firstFit size xs = none := by
  simpa [firstFit] using h

theorem withoutFirstFit_of_small (h : ∀ e ∈ xs, e.size < size) :
    withoutFirstFit minimum size xs = xs := by
  induction xs with
  | nil => rfl
  | cons e xs ih =>
    rw [withoutFirstFit, if_pos (h e (by simp)), ih fun a ha => h a (by simp [ha])]

theorem firstFit_append (h : ∀ e ∈ xs, e.size < size) (hfit : size ≤ current.size) :
    firstFit size (xs ++ current :: next) = some current.base := by
  have hnone : xs.find? (fun e => decide (size ≤ e.size)) = none := by
    simpa using h
  simp [firstFit, List.find?_append, hnone, hfit]

theorem withoutFirstFit_append (h : ∀ e ∈ xs, e.size < size) (hfit : size ≤ current.size) :
    withoutFirstFit minimum size (xs ++ current :: next) =
      xs ++ ((freeEntryIn minimum (current.base + size) current.top).toList ++ next) := by
  induction xs with
  | nil => rw [List.nil_append, withoutFirstFit, if_neg (by omega), List.nil_append]
  | cons e xs ih =>
    rw [List.cons_append, withoutFirstFit, if_pos (h e (by simp)),
      ih fun a ha => h a (by simp [ha]), List.cons_append]

/-- A hint is stale, or it names an entry and no entry up to that one is larger than the
hint says. -/
def HintHolds (list : List Extent) (address hintSize : ℕ) : Prop :=
  (∀ e ∈ list, address < e.base) ∨
    ((∃ e ∈ list, e.base = address) ∧ ∀ e ∈ list, e.base ≤ address → e.size ≤ hintSize)

/-- The entries of the list are ordered and large enough, and all hints hold. -/
structure HintsHold (p : Pool) : Prop where
  ordered : AddressOrdered p.heapFreeList
  minimum_le : ∀ e ∈ p.heapFreeList, p.minimumFreeEntrySize ≤ e.size
  hints : p.hints.All (HintHolds p.heapFreeList)

/-- A hint that names another entry holds when an entry gives way to parts of it. -/
theorem HintHolds.shrink {l m' : List Extent} {a s : ℕ}
    (h : HintHolds (l ++ current :: next) a s) (hne : a ≠ current.base)
    (hin : ∀ e ∈ m', e.Within current) : HintHolds (l ++ (m' ++ next)) a s := by
  have hmem : ∀ e ∈ l ++ (m' ++ next), e ∈ l ++ current :: next ∨ e.Within current := by
    intro e he
    simp only [List.mem_append, List.mem_cons] at he ⊢
    rcases he with he | he | he
    · exact Or.inl (Or.inl he)
    · exact Or.inr (hin e he)
    · exact Or.inl (Or.inr (Or.inr he))
  rcases h with hstale | ⟨⟨e, he, hea⟩, hsmall⟩
  · refine Or.inl fun e he => ?_
    rcases hmem e he with he | he
    · exact hstale e he
    · exact (hstale current (by simp)).trans_le he.1
  · refine Or.inr ⟨⟨e, ?_, hea⟩, fun e' he' hle => ?_⟩
    · simp only [List.mem_append, List.mem_cons] at he ⊢
      rcases he with he | rfl | he
      · exact Or.inl he
      · exact absurd hea.symm hne
      · exact Or.inr (Or.inr he)
    · rcases hmem e' he' with he' | hw
      · exact hsmall e' he' hle
      · have hcur := hsmall current (by simp) (hw.1.trans hle)
        have htop := hw.2
        simp only [Extent.top] at htop
        have := hw.1
        omega

/-- The hint for an entry holds for what is recycled of it. -/
theorem HintHolds.recycle {r : Extent} {s : ℕ} (hord : AddressOrdered (xs ++ current :: next))
    (h : HintHolds (xs ++ current :: next) current.base s) (hin : r.Within current)
    (hr : 0 < r.size) : HintHolds (xs ++ ([r] ++ next)) r.base s := by
  rcases h with hstale | ⟨-, hsmall⟩
  · exact absurd (hstale current (by simp)) (lt_irrefl _)
  · obtain ⟨hbefore, hafter⟩ := hord.around
    refine Or.inr ⟨⟨r, by simp, rfl⟩, fun e he hle => ?_⟩
    have hrtop := hin.2
    simp only [Extent.top] at hrtop
    simp only [List.mem_append, List.mem_singleton] at he
    rcases he with he | rfl | he
    · have := hbefore e he
      simp only [Extent.top] at this
      exact hsmall e (by simp [he]) (by omega)
    · have := hsmall current (by simp) le_rfl
      have := hin.1
      omega
    · have := hafter e he
      simp only [Extent.top] at this
      omega

variable {p p' : Pool}

/-- The hint that is found names an entry, and no entry up to it is large enough. -/
theorem HintsHold.found (h : HintsHold p) {hint : AllocateHint}
    (hused : (p.findHint size).2 = some hint) :
    (∃ e ∈ p.heapFreeList, e.base = hint.heapFreeHeader) ∧
      ∀ e ∈ p.heapFreeList, e.base ≤ hint.heapFreeHeader → e.size ≤ hint.size ∧
        e.size < size := by
  obtain ⟨hmem, hlive, hlt⟩ := HintCache.findHint_some hused
  rcases h.hints hint hmem with hstale | ⟨hon, hsmall⟩
  · cases hlist : p.heapFreeList with
    | nil => simp [hlist, HintCache.isStale] at hlive
    | cons e rest =>
      have := hstale e (by simp [hlist])
      simp [hlist, HintCache.isStale] at hlive
      omega
  · refine ⟨hon, fun e he hle => ?_⟩
    have := hsmall e he hle
    omega

/-- An allocation returns when its hint names an entry of the list. -/
theorem internalAllocate_isSome (hsize : 0 < size)
    (hon : ∀ hint, (p.findHint size).2 = some hint →
      ∃ e ∈ p.heapFreeList, e.base = hint.heapFreeHeader) :
    ∃ p' r, p.internalAllocate size = some (p', r) := by
  obtain ⟨before, rest, hstart⟩ := startOfWalk_isSome hon
  unfold internalAllocate
  simp only [hstart]
  split
  · exact ⟨_, _, rfl⟩
  · rename_i currentFreeEntry next _
    split
    · have hmoves := HintCache.updateHint_isSome
        (c := hintsAfterWalk (p.findHint size).1 (p.findHint size).2
          (rest.takeWhile fun e => decide (e.size < size)))
        (show currentFreeEntry.base ≠ currentFreeEntry.base + size by omega)
      obtain ⟨hints, hupd⟩ := Option.isSome_iff_exists.1 hmoves
      simp only [hupd]
      exact ⟨_, _, rfl⟩
    · exact ⟨_, _, rfl⟩

/-- The entries that a walk does not look at are too small, and the walk passes an entry
if there are any. -/
theorem HintsHold.start (h : HintsHold p) {before rest : List Extent}
    (hstart : startOfWalk p.heapFreeList (p.findHint size).2 = some (before, rest)) :
    (∀ e ∈ before, e.size < size ∧
      e.size ≤ ((p.findHint size).2.map AllocateHint.size).getD 0) ∧
    (before = [] ∨ ∃ e rest', rest = e :: rest' ∧ e.size < size) := by
  cases hused : (p.findHint size).2 with
  | none =>
    rw [hused] at hstart
    obtain ⟨rfl, -⟩ := Prod.mk.inj (Option.some.inj hstart)
    exact ⟨by simp, Or.inl rfl⟩
  | some hint =>
    rw [hused] at hstart
    obtain ⟨hlist, -, e, rest', rfl, hbase⟩ := startOfWalk_some hstart
    obtain ⟨-, hsmall⟩ := h.found hused
    have hord := h.ordered
    rw [hlist] at hord
    refine ⟨fun b hb => ?_, Or.inr ⟨e, rest', rfl, ?_⟩⟩
    · have hlt := hord.cut_lt hb (List.mem_cons_self (a := e))
      have := hsmall b (by rw [hlist]; simp [hb]) (by omega)
      simpa using And.symm this
    · exact (hsmall e (by rw [hlist]; simp) hbase.le).2

section Allocated

variable {before walked : List Extent}

/-- The entries before the one that is found are too small. -/
theorem AllocatedFrom.passed_small (ha : AllocatedFrom p p' size before walked current next)
    (h : HintsHold p) : ∀ e ∈ before ++ walked, e.size < size := by
  intro e he
  rcases List.mem_append.1 he with he | he
  · exact ((h.start ha.start).1 e he).1
  · exact ha.walked_small e he

/-- No entry is lost. -/
theorem AllocatedFrom.passed_eq (ha : AllocatedFrom p p' size before walked current next)
    (h : HintsHold p) :
    (if walked = [] then [] else before ++ walked) = before ++ walked := by
  refine ha.previous_eq h.ordered fun hint hused => ?_
  obtain ⟨⟨e, he, hbase⟩, hsmall⟩ := h.found hused
  exact ⟨e, he, hbase, Or.inl (hsmall e he hbase.le).2⟩

theorem le_largestSize (start : ℕ) (entries : List Extent) :
    start ≤ largestSize start entries ∧ ∀ e ∈ entries, e.size ≤ largestSize start entries := by
  induction entries generalizing start with
  | nil => simp [largestSize]
  | cons a entries ih =>
    obtain ⟨hstart, hall⟩ := ih (max start a.size)
    have hfold : largestSize start (a :: entries) = largestSize (max start a.size) entries := rfl
    rw [hfold]
    refine ⟨by omega, fun e he => ?_⟩
    rcases List.mem_cons.1 he with rfl | he
    · omega
    · exact hall e he

/-- The hint that a long walk records holds. -/
theorem AllocatedFrom.hintsAfterWalk (ha : AllocatedFrom p p' size before walked current next)
    (h : HintsHold p) :
    (hintsAfterWalk (p.findHint size).1 (p.findHint size).2 walked).All
      (HintHolds p.heapFreeList) := by
  have hfound : (p.findHint size).1.All (HintHolds p.heapFreeList) :=
    (HintCache.findHint_all h.hints).mono fun _ _ => And.left
  unfold Pool.hintsAfterWalk
  split
  · exact hfound
  · rename_i previous hlast
    split
    · refine HintCache.addHint_all hfound (Or.inr ⟨⟨previous, ?_, rfl⟩, fun e he hle => ?_⟩)
      · rw [ha.heapFreeList_eq]
        simp [List.mem_of_mem_getLast? hlast]
      · -- an entry up to the last one of the walk was passed by it or by the hint
        have hord := h.ordered
        rw [ha.heapFreeList_eq] at he hord
        obtain ⟨hlargest, hall⟩ :=
          le_largestSize (((p.findHint size).2.map AllocateHint.size).getD 0) walked
        rcases List.mem_append.1 he with he' | he'
        · rcases List.mem_append.1 he' with he' | he'
          · exact ((h.start ha.start).1 e he').2.trans hlargest
          · exact hall e he'
        · have hprev : previous ∈ before ++ walked :=
            List.mem_append_right _ (List.mem_of_mem_getLast? hlast)
          have := hord.cut_lt hprev he'
          omega
    · exact hfound

/-- An allocation keeps all hints true. -/
theorem AllocatedFrom.hintsHold (ha : AllocatedFrom p p' size before walked current next)
    (h : HintsHold p) : HintsHold p' := by
  have hlist := ha.heapFreeList_eq
  have hord := h.ordered
  rw [hlist] at hord
  have hkept : ∀ e ∈ (p.createFreeEntry (current.base + size) current.top).toList,
      e.Within current := by
    intro e he
    obtain ⟨hbase, htop, -⟩ := mem_createFreeEntry he
    exact ⟨by omega, by omega⟩
  have hlist' := ha.list_eq
  rw [ha.passed_eq h] at hlist'
  have hafter := ha.hintsAfterWalk h
  rw [hlist] at hafter
  refine ⟨?_, fun e he => ?_, ?_⟩
  · rw [hlist']
    exact AddressOrdered.replace (m := [current]) hord (addressOrdered_freeEntryIn _ _ _)
      fun e he => ⟨current, by simp, hkept e he⟩
  · rw [ha.minimum_eq]
    rw [hlist'] at he
    rcases List.mem_append.1 he with he | he
    · exact h.minimum_le e (by rw [hlist]; exact List.mem_append_left _ he)
    · rcases List.mem_append.1 he with he | he
      · exact (mem_createFreeEntry he).2.2.2
      · exact h.minimum_le e (by rw [hlist]; simp [he])
  · rw [hlist']
    rcases ha.hints_eq with ⟨r, hr, hupd⟩ | ⟨hnone, hrem⟩
    · obtain ⟨hrbase, -, hrpos, -⟩ := freeEntryIn_eq_some hr
      have hrin := hkept r (by simp [hr])
      refine HintCache.updateHint_all hafter hupd (fun s hs => ?_) fun a s hne hs => ?_
      · rw [hr, ← hrbase]
        exact hs.recycle hord hrin hrpos
      · exact hs.shrink hne hkept
    · rw [hrem]
      exact (HintCache.removeHint_all hafter).mono fun a s ⟨hs, hne⟩ => hs.shrink hne hkept

end Allocated

/-- `internalAllocate` is first fit, and keeps all hints true. -/
theorem internalAllocate_firstFit (h : HintsHold p) (hsize : 0 < size) :
    ∃ p', p.internalAllocate size = some (p', firstFit size p.heapFreeList) ∧
      p'.heapFreeList = withoutFirstFit p.minimumFreeEntrySize size p.heapFreeList ∧
      HintsHold p' := by
  obtain ⟨p', r, hrun⟩ := internalAllocate_isSome hsize fun hint hused => (h.found hused).1
  rcases internalAllocate_cases hrun with ⟨rfl, before, rest, hstart, hsmall, rfl⟩ |
    ⟨before, walked, current, next, rfl, ha⟩
  · have hall : ∀ e ∈ p.heapFreeList, e.size < size := by
      intro e he
      rw [startOfWalk_eq_append hstart, List.mem_append] at he
      rcases he with he | he
      · exact ((h.start hstart).1 e he).1
      · exact hsmall e he
    rw [firstFit_of_small hall]
    exact ⟨_, hrun, (withoutFirstFit_of_small hall).symm, h.ordered, h.minimum_le,
      (HintCache.findHint_all h.hints).mono fun _ _ => And.left⟩
  · have hall := ha.passed_small h
    refine ⟨p', ?_, ?_, ha.hintsHold h⟩
    · rw [hrun, ha.heapFreeList_eq, firstFit_append hall ha.current_fits]
    · rw [ha.list_eq, ha.passed_eq h, ha.heapFreeList_eq,
        withoutFirstFit_append hall ha.current_fits]
      rfl

/-- `internalAllocateTLH` passes its assertion when the entries are large enough. -/
theorem internalAllocateTLH_isSome (maximum : ℕ)
    (h : ∀ e ∈ p.heapFreeList, p.minimumFreeEntrySize ≤ e.size) :
    ∃ p' r, p.internalAllocateTLH maximum = some (p', r) := by
  cases hrun : p.internalAllocateTLH maximum with
  | some x => exact ⟨x.1, x.2, rfl⟩
  | none =>
    unfold internalAllocateTLH at hrun
    split at hrun
    · simp at hrun
    · rename_i freeEntry next hlist
      have hmin := h freeEntry (by simp [hlist])
      rw [if_neg (by omega)] at hrun
      dsimp only at hrun
      repeat' split at hrun
      all_goals simp at hrun

/-- `internalAllocateTLH` returns and keeps all hints true: the hints for the entry it
takes from become stale. -/
theorem internalAllocateTLH_hintsHold (h : HintsHold p) {maximum : ℕ} (hmax : 0 < maximum) :
    ∃ p' r, p.internalAllocateTLH maximum = some (p', r) ∧ HintsHold p' := by
  obtain ⟨p', r, hrun⟩ := internalAllocateTLH_isSome maximum h.minimum_le
  refine ⟨p', r, hrun, ?_⟩
  rcases internalAllocateTLH_cases hrun with ⟨-, -, rfl⟩ |
    ⟨freeEntry, next, consumed, -, hconsumed, ht⟩
  · exact ⟨h.ordered, h.minimum_le, h.hints⟩
  · have hlist := ht.heapFreeList_eq
    have hord := h.ordered
    rw [hlist] at hord
    have hpos := hord.size_pos freeEntry (by simp)
    have hkept : ∀ e ∈ (p.createFreeEntry (freeEntry.base + consumed) freeEntry.top).toList,
        e.base = freeEntry.base + consumed ∧ e.Within freeEntry := by
      intro e he
      obtain ⟨hbase, htop, -⟩ := mem_createFreeEntry he
      exact ⟨hbase, by omega, by omega⟩
    refine ⟨?_, fun e he => ?_, ?_⟩
    · rw [ht.list_eq]
      exact AddressOrdered.replace (l := []) (m := [freeEntry]) hord
        (addressOrdered_freeEntryIn _ _ _) fun e he => ⟨freeEntry, by simp, (hkept e he).2⟩
    · rw [ht.minimum_eq]
      rw [ht.list_eq, List.mem_append] at he
      rcases he with he | he
      · exact (mem_createFreeEntry he).2.2.2
      · exact h.minimum_le e (by rw [hlist]; simp [he])
    · rw [ht.hints_eq, ht.list_eq]
      have hhints := h.hints
      rw [hlist] at hhints
      refine hhints.mono fun a s hs => ?_
      by_cases ha : a = freeEntry.base
      · left
        intro e he
        rcases List.mem_append.1 he with he | he
        · have := (hkept e he).1
          omega
        · have := (AddressOrdered.cons_iff.1 hord).2.2 e he
          simp only [Extent.top] at this
          omega
      · exact HintHolds.shrink (l := []) hs ha fun e he => (hkept e he).2

/-- A pool after `reset` and the building of its list: no hint is active. -/
structure Fresh (p : Pool) : Prop where
  ordered : AddressOrdered p.heapFreeList
  minimum_le : ∀ e ∈ p.heapFreeList, p.minimumFreeEntrySize ≤ e.size
  noHints : p.hints.hintActive = []

theorem reset_fresh (p : Pool) : Fresh p.reset :=
  ⟨AddressOrdered.nil, by simp [reset], rfl⟩

theorem rebuildFreeListInRegion_fresh (p : Pool) (low high : ℕ) :
    Fresh (p.rebuildFreeListInRegion low high) := by
  unfold rebuildFreeListInRegion
  cases hnew : p.createFreeEntry low high with
  | none => exact reset_fresh p
  | some e =>
    obtain ⟨-, -, hpos, hmin⟩ := freeEntryIn_eq_some hnew
    exact ⟨AddressOrdered.singleton hpos, by simpa [reset] using hmin, rfl⟩

/-- The pools that allocations reach. -/
inductive Allocated : Pool → Prop where
  | fresh {p : Pool} (h : Fresh p) : Allocated p
  | allocate {p p' : Pool} {size : ℕ} {r : Option ℕ} (h : Allocated p) (hsize : 0 < size)
      (hrun : p.internalAllocate size = some (p', r)) : Allocated p'
  | allocateTLH {p p' : Pool} {maximum : ℕ} {r : Option Extent} (h : Allocated p)
      (hmax : 0 < maximum) (hrun : p.internalAllocateTLH maximum = some (p', r)) : Allocated p'

theorem Allocated.hintsHold (h : Allocated p) : HintsHold p := by
  induction h with
  | fresh h => exact ⟨h.ordered, h.minimum_le, by simp [HintCache.All, h.noHints]⟩
  | allocate _ hsize hrun ih =>
    obtain ⟨q, hq, -, hhold⟩ := internalAllocate_firstFit ih hsize
    obtain ⟨rfl, -⟩ := Prod.mk.inj (Option.some.inj (hrun.symm.trans hq))
    exact hhold
  | allocateTLH _ hmax hrun ih =>
    obtain ⟨q, r, hq, hhold⟩ := internalAllocateTLH_hintsHold ih hmax
    obtain ⟨rfl, -⟩ := Prod.mk.inj (Option.some.inj (hrun.symm.trans hq))
    exact hhold

/-- In every pool that allocations reach, `internalAllocate` returns what first fit over
the whole list returns and leaves the list that first fit leaves; and a hint that it
uses names an entry of the list that is too small for the request. -/
theorem allocated_firstFit (h : Allocated p) (size : ℕ) (hsize : 0 < size) :
    (∃ p', p.internalAllocate size = some (p', firstFit size p.heapFreeList) ∧
      p'.heapFreeList = withoutFirstFit p.minimumFreeEntrySize size p.heapFreeList) ∧
    ∀ hint, (p.findHint size).2 = some hint →
      ∃ e ∈ p.heapFreeList, e.base = hint.heapFreeHeader ∧ e.size < size := by
  have hhold := h.hintsHold
  refine ⟨?_, fun hint hused => ?_⟩
  · obtain ⟨p', hrun, hlist, -⟩ := internalAllocate_firstFit hhold hsize
    exact ⟨p', hrun, hlist⟩
  · obtain ⟨⟨e, he, hbase⟩, hsmall⟩ := hhold.found hused
    exact ⟨e, he, hbase, (hsmall e he hbase.le).2⟩

/-- A pool with twenty-one small entries and two larger ones, on which the second request
is served from a hint. -/
def longPool : Pool :=
  ⟨16, (List.range 21).map (fun i => ⟨1000 + 100 * i, 16⟩) ++ [⟨3100, 64⟩, ⟨3200, 64⟩], 464, 23, 64,
    HintCache.initHints, 0, 0, 0, 0⟩

theorem allocated_firstFit_longPool :
    ∃ p, Allocated p ∧ 0 < 40 ∧ (p.findHint 40).2 = some ⟨16, 3000, 0⟩ ∧
      (∃ p', p.internalAllocate 40 = some (p', some 3200)) := by
  have hfresh : Fresh longPool := ⟨by decide, by decide, rfl⟩
  have hrun : ∃ p, longPool.internalAllocate 32 = some (p, some 3100) ∧
      (p.findHint 40).2 = some ⟨16, 3000, 0⟩ ∧ firstFit 40 p.heapFreeList = some 3200 := by
    refine ⟨_, rfl, ?_⟩
    decide
  obtain ⟨p, hp, hhint, hfit⟩ := hrun
  have hreach := (Allocated.fresh hfresh).allocate (by decide) hp
  obtain ⟨⟨p', hp', -⟩, -⟩ := allocated_firstFit hreach 40 (by decide)
  exact ⟨p, hreach, by decide, hhint, p', by rw [hp', hfit]⟩

end OMR.GC.Pool
