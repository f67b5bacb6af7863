import Mathlib.Tactic
import OMR.GC.SplitPoolAllocation

/-!
# `postProcess` establishes the invariant

Whether the list is cut at its entries or at the candidates of the sweep, the lists
together are the list there was, in order. From this, with the counters, the reserved
entry and no hints, the invariant follows.
-/

namespace OMR.GC.SplitPool

open OMR.Lib

variable {p : SplitPool} {l passed rest : List Extent} {e : Extent} {i : ℕ}

@[simp] theorem heapFreeLists_setList_self (p : SplitPool) (i : ℕ) (list : FreeList) :
    (p.setList i list).heapFreeLists i = list := Function.update_self ..

theorem heapFreeLists_setList_of_ne (p : SplitPool) {i j : ℕ} (list : FreeList) (h : j ≠ i) :
    (p.setList i list).heapFreeLists j = p.heapFreeLists j := Function.update_of_ne h ..

@[simp] theorem entries_setList_self (p : SplitPool) (i : ℕ) (list : FreeList) :
    (p.setList i list).entries i = list.freeList := by simp [entries]

theorem entries_setList_of_ne (p : SplitPool) {i j : ℕ} (list : FreeList) (h : j ≠ i) :
    (p.setList i list).entries j = p.entries j := by
  simp [entries, heapFreeLists_setList_of_ne p list h]

/-- All entries, list after list. -/
def allEntries (p : SplitPool) : List Extent := (List.range p.heapFreeListCount).flatMap p.entries

/-- The counters of a list are right. -/
def Counted (p : SplitPool) (i : ℕ) : Prop :=
  (p.heapFreeLists i).freeSize = totalSize (p.entries i) ∧
    (p.heapFreeLists i).freeCount = (p.entries i).length

/-- Entries that move from one list to the next stay where they are among all entries. -/
theorem flatMap_range_cut {f g : ℕ → List Extent} {n : ℕ} (hi : i + 1 < n)
    (hcut : g i ++ g (i + 1) = f i ++ f (i + 1)) (hother : ∀ j, j ≠ i → j ≠ i + 1 → g j = f j) :
    (List.range n).flatMap g = (List.range n).flatMap f := by
  obtain ⟨m, rfl⟩ := Nat.exists_eq_add_of_lt hi
  have hlow : (List.range i).flatMap g = (List.range i).flatMap f := by
    refine List.flatMap_congr fun j hj => hother j ?_ ?_ <;> have := List.mem_range.1 hj <;> omega
  have hhigh : ((List.range m).map (i + 2 + ·)).flatMap g =
      ((List.range m).map (i + 2 + ·)).flatMap f := by
    refine List.flatMap_congr fun j hj => ?_
    obtain ⟨k, -, rfl⟩ := List.mem_map.1 hj
    exact hother _ (by omega) (by omega)
  have hrange : List.range (i + 1 + m + 1) =
      List.range i ++ ([i, i + 1] ++ (List.range m).map (i + 2 + ·)) := by
    rw [show i + 1 + m + 1 = i + 2 + m by omega, List.range_add, List.range_succ, List.range_succ]
    simp
  rw [hrange]
  simp only [List.flatMap_append, hlow, hhigh]
  simp [← List.append_assoc, hcut]

theorem allEntries_cut {p' : SplitPool} (hi : i + 1 < p.heapFreeListCount)
    (hcount : p'.heapFreeListCount = p.heapFreeListCount)
    (hcut : p'.entries i ++ p'.entries (i + 1) = p.entries i ++ p.entries (i + 1))
    (hother : ∀ j, j ≠ i → j ≠ i + 1 → p'.entries j = p.entries j) :
    p'.allEntries = p.allEntries := by
  unfold allEntries
  rw [hcount]
  exact flatMap_range_cut hi hcut hother

theorem allEntries_congr {p' : SplitPool} (hcount : p'.heapFreeListCount = p.heapFreeListCount)
    (hsame : ∀ j, p'.entries j = p.entries j) : p'.allEntries = p.allEntries := by
  unfold allEntries
  rw [hcount]
  exact List.flatMap_congr fun j _ => hsame j

/-- If all entries are in order, so is each list, and no two of them meet. -/
theorem ordered_of_allEntries (h : AddressOrdered p.allEntries) :
    (∀ i < p.heapFreeListCount, AddressOrdered (p.entries i)) ∧
      ∀ i < p.heapFreeListCount, ∀ j < p.heapFreeListCount, i ≠ j →
        Disjoint (bytesOf (p.entries i)) (bytesOf (p.entries j)) := by
  obtain ⟨hin, hbetween⟩ := List.pairwise_flatMap.1 h.apart
  have hlt : ∀ i j, i < j → j < p.heapFreeListCount →
      Disjoint (bytesOf (p.entries i)) (bytesOf (p.entries j)) := by
    intro i j hij hj
    have hbefore := List.pairwise_iff_getElem.1 hbetween i j (by simp; omega) (by simpa) hij
    simp only [List.getElem_range] at hbefore
    refine Set.disjoint_left.2 ?_
    rintro a ⟨x, hx, hax⟩ ⟨y, hy, hay⟩
    have hle := hbefore x hx y hy
    rw [Extent.mem_bytes] at hax hay
    omega
  refine ⟨fun i hi => ⟨fun e he => ?_, hin i (List.mem_range.2 hi)⟩, fun i hi j hj hij => ?_⟩
  · exact h.size_pos e (List.mem_flatMap.2 ⟨i, List.mem_range.2 hi, he⟩)
  · obtain hij | hji := Nat.lt_or_gt_of_ne hij
    · exact hlt i j hij hj
    · exact (hlt j i hji hi).symm

/-- The bytes of all entries are the free bytes. -/
theorem freeBytes_eq_allEntries (p : SplitPool) : p.freeBytes = bytesOf p.allEntries := by
  ext a
  constructor
  · rintro ⟨i, hi, e, he, ha⟩
    exact ⟨e, List.mem_flatMap.2 ⟨i, List.mem_range.2 hi, he⟩, ha⟩
  · rintro ⟨e, he, ha⟩
    obtain ⟨i, hi, he⟩ := List.mem_flatMap.1 he
    exact ⟨i, List.mem_range.1 hi, e, he, ha⟩

/-- No hint is active. -/
def NoHints (p : SplitPool) : Prop := ∀ i, (p.heapFreeLists i).hints.hintActive = []

/-- The invariant of a pool without hints. -/
theorem sound_of_allEntries (hpos : 0 < p.heapFreeListCount)
    (hthread : ∀ k < p.heapFreeListCount, p.currentThreadFreeList k < p.heapFreeListCount)
    (hord : AddressOrdered p.allEntries) (hcounted : ∀ i < p.heapFreeListCount, p.Counted i)
    (hres : p.IsReset ∨ ∃ i e, p.IsReserved i e) (hhints : p.NoHints) : p.Sound := by
  obtain ⟨hlists, hdisj⟩ := ordered_of_allEntries hord
  refine ⟨hpos, hthread, hlists, hdisj, fun i hi => (hcounted i hi).1,
    fun i hi => (hcounted i hi).2, hres, fun i _ => ⟨?_, ?_⟩⟩
  · intro hint hmem
    rw [hhints i] at hmem
    cases hmem
  · rw [HintCache.addresses, hhints i]
    exact List.nodup_nil

/-- The reserved entry is among the entries that the loop over the entries has passed. -/
def ReservedPassed (p : SplitPool) (i : ℕ) (passed : List Extent) : Prop :=
  ∃ k xs e ys, k ≤ i ∧ p.reservedFreeEntryAvaliable = true ∧ p.reservedFreeListIndex = k ∧
    p.previousReservedFreeEntry = Link.last xs ∧ p.reservedFreeEntrySize = e.size ∧
    (if k = i then passed else p.entries k) = xs ++ e :: ys

/-- The loop over the entries has come to the list `i` and has passed `passed` of it. -/
structure Splitting (l : List Extent) (p : SplitPool) (i : ℕ) (passed rest : List Extent) :
    Prop where
  index_lt : i < p.heapFreeListCount
  all : p.allEntries = l
  current : p.entries i = passed ++ rest
  later : ∀ j, i < j → p.entries j = []
  counted : ∀ j, j ≠ i → p.Counted j
  freeSize : (p.heapFreeLists i).freeSize = totalSize passed
  freeCount : (p.heapFreeLists i).freeCount = passed.length
  reserved : (i = 0 ∧ passed = [] ∧ p.reservedFreeEntrySize = 0) ∨ p.ReservedPassed i passed
  hints : p.NoHints

/-- An entry is passed: it is counted, and the larger one of it and the reserved entry is
reserved. -/
theorem Splitting.pass {p' : SplitPool} (h : Splitting l p i passed (e :: rest))
    (hlists : p'.heapFreeLists = (p.setList i { p.heapFreeLists i with
      freeSize := (p.heapFreeLists i).freeSize + e.size
      freeCount := (p.heapFreeLists i).freeCount + 1 }).heapFreeLists)
    (hcount : p'.heapFreeListCount = p.heapFreeListCount)
    (hres : p'.ReservedPassed i (passed ++ [e])) :
    Splitting l p' i (passed ++ [e]) rest := by
  have hself : p'.heapFreeLists i = { p.heapFreeLists i with
      freeSize := (p.heapFreeLists i).freeSize + e.size
      freeCount := (p.heapFreeLists i).freeCount + 1 } := by
    rw [hlists, heapFreeLists_setList_self]
  have hother : ∀ j, j ≠ i → p'.heapFreeLists j = p.heapFreeLists j := by
    intro j hj
    rw [hlists, heapFreeLists_setList_of_ne _ _ hj]
  have hentries : ∀ j, p'.entries j = p.entries j := by
    intro j
    by_cases hj : j = i
    · subst hj
      simp only [entries, hself]
    · simp only [entries, hother j hj]
  refine ⟨hcount ▸ h.index_lt, (allEntries_congr hcount hentries).trans h.all, ?_, fun j hj => ?_,
    fun j hj => ?_, ?_, ?_, Or.inr hres, fun j => ?_⟩
  · rw [hentries, h.current, List.append_assoc, List.singleton_append]
  · rw [hentries]
    exact h.later j hj
  · rw [Counted, hother j hj, hentries]
    exact h.counted j hj
  · rw [hself, totalSize_append, ← h.freeSize]
    simp
  · rw [hself, List.length_append, ← h.freeCount]
    rfl
  · by_cases hj : j = i
    · rw [hj, hself]
      exact h.hints i
    · rw [hother j hj]
      exact h.hints j

/-- The list is cut behind the entries passed, and the rest is the next list. -/
theorem Splitting.cut (h : Splitting l p i passed rest) (hi : i + 1 < p.heapFreeListCount)
    (hres : p.ReservedPassed i passed) {list : FreeList} (hlist : list = p.heapFreeLists i) :
    Splitting l ((p.setList i { list with freeList := passed }).setList (i + 1)
      { (p.setList i { list with freeList := passed }).heapFreeLists (i + 1) with
        freeList := rest, freeSize := 0, freeCount := 0 }) (i + 1) [] rest := by
  subst hlist
  generalize hp' : (p.setList i { p.heapFreeLists i with freeList := passed }).setList (i + 1)
    { (p.setList i { p.heapFreeLists i with freeList := passed }).heapFreeLists (i + 1) with
      freeList := rest, freeSize := 0, freeCount := 0 } = p'
  have hnext : p'.heapFreeLists (i + 1) =
      ⟨rest, 0, 0, (p.heapFreeLists (i + 1)).timesLocked, (p.heapFreeLists (i + 1)).hints⟩ := by
    rw [← hp', heapFreeLists_setList_self, heapFreeLists_setList_of_ne _ _ (by omega)]
  have hself : p'.heapFreeLists i = { p.heapFreeLists i with freeList := passed } := by
    rw [← hp', heapFreeLists_setList_of_ne _ _ (by omega), heapFreeLists_setList_self]
  have hother : ∀ j, j ≠ i → j ≠ i + 1 → p'.heapFreeLists j = p.heapFreeLists j := by
    intro j hj hj'
    rw [← hp', heapFreeLists_setList_of_ne _ _ hj', heapFreeLists_setList_of_ne _ _ hj]
  have hcount : p'.heapFreeListCount = p.heapFreeListCount := by rw [← hp']; rfl
  have hall : p'.allEntries = p.allEntries := by
    refine allEntries_cut hi hcount ?_ fun j hj hj' => by rw [entries, hother j hj hj', entries]
    rw [h.current, h.later (i + 1) (by omega), entries, entries, hself, hnext, List.append_nil]
  refine ⟨hcount ▸ hi, hall.trans h.all, by rw [entries, hnext]; rfl, fun j hj => ?_,
    fun j hj => ?_, by rw [hnext]; rfl, by rw [hnext]; rfl, Or.inr ?_, fun j => ?_⟩
  · rw [entries, hother j (by omega) (by omega)]
    exact h.later j (by omega)
  · by_cases hji : j = i
    · subst hji
      rw [Counted, entries, hself]
      exact ⟨h.freeSize, h.freeCount⟩
    · rw [Counted, entries, hother j hji hj]
      exact h.counted j hji
  · obtain ⟨k, xs, x, ys, hk, hav, hidx, hprev, hsize, hseen⟩ := hres
    have hfields : p'.reservedFreeEntryAvaliable = p.reservedFreeEntryAvaliable ∧
        p'.reservedFreeListIndex = p.reservedFreeListIndex ∧
        p'.previousReservedFreeEntry = p.previousReservedFreeEntry ∧
        p'.reservedFreeEntrySize = p.reservedFreeEntrySize := by
      rw [← hp']
      exact ⟨rfl, rfl, rfl, rfl⟩
    refine ⟨k, xs, x, ys, by omega, hfields.1.trans hav, hfields.2.1.trans hidx,
      hfields.2.2.1.trans hprev, hfields.2.2.2.trans hsize, ?_⟩
    rw [if_neg (by omega), ← hseen]
    split
    · rename_i hki
      rw [hki, entries, hself]
    · rename_i hki
      rw [entries, hother k hki (by omega), entries]
  · by_cases hji : j = i
    · rw [hji, hself]
      exact h.hints i
    · by_cases hj' : j = i + 1
      · rw [hj', hnext]
        exact h.hints (i + 1)
      · rw [hother j hji hj']
        exact h.hints j

/-- What the loops of `postProcess` leave as it is. -/
structure SameShape (p p' : SplitPool) : Prop where
  count : p'.heapFreeListCount = p.heapFreeListCount
  minimum : p'.minimumFreeEntrySize = p.minimumFreeEntrySize
  thread : p'.currentThreadFreeList = p.currentThreadFreeList

theorem SameShape.trans {p' p'' : SplitPool} (h : SameShape p p') (h' : SameShape p' p'') :
    SameShape p p'' :=
  ⟨h'.count.trans h.count, h'.minimum.trans h.minimum, h'.thread.trans h.thread⟩

/-- The loop of `postProcess` over the entries. -/
theorem splitEntries_spec (hord : AddressOrdered l) (splitSize last : ℕ) {rest : List Extent} :
    ∀ {p : SplitPool} {i : ℕ} {passed : List Extent}, Splitting l p i passed rest →
      last + 1 = p.heapFreeListCount →
      ∃ i' passed', Splitting l (splitEntries splitSize last rest p i passed) i' passed' [] ∧
        SameShape p (splitEntries splitSize last rest p i passed) := by
  induction rest with
  | nil =>
    intro p i passed h _
    exact ⟨i, passed, h, rfl, rfl, rfl⟩
  | cons e rest ih =>
    intro p i passed h hlast
    have hpos : 0 < e.size := by
      refine hord.size_pos e ?_
      rw [← h.all]
      refine List.mem_flatMap.2 ⟨i, List.mem_range.2 h.index_lt, ?_⟩
      simp [h.current]
    unfold splitEntries
    dsimp only
    generalize hp' : (if e.size > (p.setList i { p.heapFreeLists i with
          freeSize := (p.heapFreeLists i).freeSize + e.size
          freeCount := (p.heapFreeLists i).freeCount + 1 }).reservedFreeEntrySize then
        (p.setList i { p.heapFreeLists i with
          freeSize := (p.heapFreeLists i).freeSize + e.size
          freeCount := (p.heapFreeLists i).freeCount + 1 }).setReserved e.size i (Link.last passed)
      else p.setList i { p.heapFreeLists i with
          freeSize := (p.heapFreeLists i).freeSize + e.size
          freeCount := (p.heapFreeLists i).freeCount + 1 }) = p'
    have hlists : p'.heapFreeLists = (p.setList i { p.heapFreeLists i with
        freeSize := (p.heapFreeLists i).freeSize + e.size
        freeCount := (p.heapFreeLists i).freeCount + 1 }).heapFreeLists := by
      rw [← hp']
      split <;> rfl
    have hshape : SameShape p p' := by
      rw [← hp']
      split <;> exact ⟨rfl, rfl, rfl⟩
    have hres : p'.ReservedPassed i (passed ++ [e]) := by
      rw [← hp']
      split
      · exact ⟨i, passed, e, [], le_rfl, rfl, rfl, rfl, rfl, by rw [if_pos rfl]⟩
      · rename_i hle
        obtain ⟨-, -, hzero⟩ | ⟨k, xs, x, ys, hk, hav, hidx, hprev, hsize, hseen⟩ := h.reserved
        · exact absurd (show e.size > p.reservedFreeEntrySize by omega) hle
        · by_cases hki : k = i
          · rw [if_pos hki] at hseen
            refine ⟨k, xs, x, ys ++ [e], hk, hav, hidx, hprev, hsize, ?_⟩
            rw [if_pos hki, hseen]
            simp
          · rw [if_neg hki] at hseen
            refine ⟨k, xs, x, ys, hk, hav, hidx, hprev, hsize, ?_⟩
            rw [if_neg hki, entries_setList_of_ne _ _ hki, hseen]
    have hpass := h.pass hlists hshape.count hres
    split
    · rename_i hcut
      have hi : i + 1 < p'.heapFreeListCount := by
        have := hcut.2
        rw [hshape.count]
        omega
      have hself : p'.heapFreeLists i = { p.heapFreeLists i with
          freeSize := (p.heapFreeLists i).freeSize + e.size
          freeCount := (p.heapFreeLists i).freeCount + 1 } := by
        rw [hlists, heapFreeLists_setList_self]
      obtain ⟨i', passed', hend, hshape'⟩ := ih (hpass.cut hi hres hself.symm)
        (hlast.trans hshape.count.symm)
      exact ⟨i', passed', hend,
        hshape.trans ⟨hshape'.count, hshape'.minimum, hshape'.thread⟩⟩
    · obtain ⟨i', passed', hend, hshape'⟩ := ih hpass (hlast.trans hshape.count.symm)
      exact ⟨i', passed', hend, hshape.trans hshape'⟩

/-- What the loops of `postProcess` end with. -/
structure Divided (l : List Extent) (p : SplitPool) : Prop where
  all : p.allEntries = l
  counted : ∀ i < p.heapFreeListCount, p.Counted i
  reserved : ∃ i e, p.IsReserved i e
  hints : p.NoHints

theorem Splitting.divided (h : Splitting l p i passed []) (hl : l ≠ []) : Divided l p := by
  have hcurrent : p.entries i = passed := by rw [h.current, List.append_nil]
  refine ⟨h.all, fun j _ => ?_, ?_, h.hints⟩
  · by_cases hj : j = i
    · rw [hj, Counted, hcurrent]
      exact ⟨h.freeSize, h.freeCount⟩
    · exact h.counted j hj
  · obtain ⟨rfl, rfl, -⟩ | ⟨k, xs, x, ys, hk, hav, hidx, hprev, hsize, hseen⟩ := h.reserved
    · refine absurd ?_ hl
      rw [← h.all]
      refine List.flatMap_eq_nil_iff.2 fun j _ => ?_
      obtain rfl | hj := Nat.eq_zero_or_pos j
      · exact hcurrent
      · exact h.later j hj
    · refine ⟨k, x, xs, ys, hav, hidx, by have := h.index_lt; omega, ?_, hprev, hsize⟩
      rw [← hseen]
      split
      · rename_i hki
        rw [hki, hcurrent]
      · rfl

/-- The chunk may be cut at. -/
def SplitChunk.IsCandidate (chunk : SplitChunk) : Prop :=
  chunk.ownMemoryPool = true ∧ chunk.splitCandidate ≠ none

/-- The chunk has its candidate behind the entries `xs` of the list that the sweep built, and the
size and number of these. -/
structure SplitChunk.CandidateAfter (chunk : SplitChunk) (l xs : List Extent) : Prop where
  candidate : ∃ e ys, l = xs ++ e :: ys ∧ chunk.splitCandidate = some e.base
  previous : chunk.splitCandidatePreviousEntry = Link.last xs
  size : chunk.accumulatedFreeSize = totalSize xs
  holes : chunk.accumulatedFreeHoles = xs.length

/-- What a sweep that has built the list `l` says about it: its size, its largest entry, and
the candidates of the chunks in address order. -/
structure SweepPoolState.Of (sweep : SweepPoolState) (l : List Extent) : Prop where
  sweepFreeBytes : sweep.sweepFreeBytes = totalSize l
  sweepFreeHoles : sweep.sweepFreeHoles = l.length
  largest : ∃ xs e ys, l = xs ++ e :: ys ∧ sweep.previousLargestFreeEntry = Link.last xs ∧
    sweep.largestFreeEntry = e.size
  candidates : ∀ chunk ∈ sweep.chunks, chunk.IsCandidate → ∃ xs, chunk.CandidateAfter l xs
  increasing : sweep.chunks.Pairwise fun a b => a.IsCandidate → b.IsCandidate →
    a.accumulatedFreeHoles < b.accumulatedFreeHoles

/-- Prefixes of a list, by their lengths. -/
theorem append_cases {xs ys xs' ys' : List Extent} (h : xs ++ ys = xs' ++ ys')
    (hle : xs.length ≤ xs'.length) : ∃ m, xs' = xs ++ m ∧ ys = m ++ ys' := by
  obtain ⟨m, hxs, hys⟩ | ⟨m, hxs, hys⟩ := List.append_eq_append_iff.1 h
  · exact ⟨m, hxs, hys⟩
  · have hm : m = [] := by
      rw [hxs, List.length_append] at hle
      exact List.length_eq_zero_iff.1 (by omega)
    subst hm
    exact ⟨[], by simpa using hxs.symm, by simpa using hys.symm⟩

/-- Links to the ends of two prefixes of an ordered list compare as the prefixes do. -/
theorem last_le_last_iff (hord : AddressOrdered l) {xs ys xs' ys' : List Extent}
    (h : l = xs ++ ys) (h' : l = xs' ++ ys') :
    (Link.last xs).le (Link.last xs') = true ↔ xs.length ≤ xs'.length := by
  have key : ∀ {us vs us' vs' : List Extent} {a b : Extent}, l = us ++ [a] ++ vs →
      l = us' ++ [b] ++ vs' → us.length < us'.length → a.base < b.base := by
    intro us vs us' vs' a b hus hus' hlt
    have heq : (us ++ [a]) ++ vs = us' ++ ([b] ++ vs') := by
      rw [← hus, hus', List.append_assoc]
    obtain ⟨m, hm, -⟩ := append_cases heq (by simp; omega)
    have hsplit : AddressOrdered (us' ++ ([b] ++ vs')) := by
      rw [← List.append_assoc, ← hus']
      exact hord
    exact hsplit.cut_lt (by simp [hm]) (List.mem_append_left _ (List.mem_singleton_self b))
  obtain rfl | ⟨us, a, rfl⟩ := List.eq_nil_or_concat xs
  · simp [Link.last, Link.le]
  · obtain rfl | ⟨us', b, rfl⟩ := List.eq_nil_or_concat xs'
    · simp [Link.last, Link.le]
    · rw [List.concat_eq_append] at h h' ⊢
      rw [List.concat_eq_append, Link.last_concat, Link.last_concat]
      simp only [Link.le, decide_eq_true_eq, List.length_append, List.length_singleton]
      obtain hlt | heq | hgt := lt_trichotomy us.length us'.length
      · have := key h h' hlt
        omega
      · have hsame : us ++ [a] = us' ++ [b] :=
          List.append_inj_left (h.symm.trans h') (by simp [heq])
        obtain ⟨-, hab⟩ := List.append_inj' hsame rfl
        rw [List.cons.inj hab |>.1]
        omega
      · have := key h' h hgt
        omega

/-- Links to the ends of different prefixes differ. -/
theorem last_eq_last_iff (hord : AddressOrdered l) {xs ys xs' ys' : List Extent}
    (h : l = xs ++ ys) (h' : l = xs' ++ ys') : Link.last xs = Link.last xs' ↔ xs = xs' := by
  constructor
  · intro heq
    have hle := last_le_last_iff hord h h'
    have hle' := last_le_last_iff hord h' h
    have hrefl := last_le_last_iff hord h h
    rw [← heq] at hle hle'
    have hlen : xs.length = xs'.length :=
      le_antisymm (hle.1 (hrefl.2 le_rfl)) (hle'.1 (hrefl.2 le_rfl))
    exact List.append_inj_left (h.symm.trans h') hlen
  · rintro rfl
    rfl

/-- The loop over the chunks has come to the list `i`, and the lists before it have the entries
`done`. The reserved entry is to be the entry `e` behind `xs`. -/
structure Cutting (l xs : List Extent) (e : Extent) (p : SplitPool) (i : ℕ) (done : List Extent) :
    Prop where
  index_lt : i < p.heapFreeListCount
  all : p.allEntries = l
  current : l = done ++ p.entries i
  later : ∀ j, i < j → p.entries j = []
  counted : ∀ j, j ≠ i → p.Counted j
  size : p.reservedFreeEntrySize = e.size
  reserved : (p.reservedFreeListIndex = p.heapFreeListCount ∧
      (done = [] ∨ done.length < xs.length)) ∨
    ∃ k us vs, p.Names k us e vs ∧ k ≤ i ∧ (k = i → us = [])
  hints : p.NoHints

variable {xs ys done m : List Extent}

/-- The place of the entry on the list that it is on. -/
theorem last_of_done (hdone : done = [] ∨ done.length < xs.length) {us : List Extent}
    (h : xs = done ++ us) : Link.last xs = Link.last us := by
  cases us with
  | nil =>
    obtain rfl | hlt := hdone
    · rw [h, List.nil_append]
    · rw [h, List.append_nil] at hlt
      omega
  | cons u us => rw [h, Link.last_append_cons]

section SplitAt

variable (p) (previous : Link) (chunk : SplitChunk) (c i size holes : ℕ)

theorem splitAt_heapFreeLists : (p.splitAt previous chunk c i size holes).heapFreeLists =
    Function.update (Function.update p.heapFreeLists i { p.heapFreeLists i with
        freeCount := holes
        freeSize := size
        freeList := (p.heapFreeLists i).setNext [] chunk.splitCandidatePreviousEntry })
      (i + 1) { p.heapFreeLists (i + 1) with
        freeList := (p.heapFreeLists i).freeList.dropWhile fun e => e.base ≠ c } := by
  have hne : i + 1 ≠ i := by omega
  unfold splitAt
  dsimp only
  split
  · split
    · simp only [setList, setReserved, Function.update_of_ne hne]
    · simp only [setList, setReserved, Function.update_of_ne hne]
  · simp only [setList, Function.update_of_ne hne]

theorem splitAt_sameShape : SameShape p (p.splitAt previous chunk c i size holes) := by
  unfold splitAt
  dsimp only
  split
  · split <;> exact ⟨rfl, rfl, rfl⟩
  · exact ⟨rfl, rfl, rfl⟩

theorem splitAt_sameReserved : SameReserved
    (if p.reservedFreeListIndex = p.heapFreeListCount ∧
        previous.le chunk.splitCandidatePreviousEntry then
      if previous = chunk.splitCandidatePreviousEntry then
        p.setReserved p.reservedFreeEntrySize (i + 1) .null
      else p.setReserved p.reservedFreeEntrySize i previous
    else p) (p.splitAt previous chunk c i size holes) := by
  by_cases hfound : p.reservedFreeListIndex = p.heapFreeListCount ∧
      previous.le chunk.splitCandidatePreviousEntry
  · have hfound' : ∀ list, (p.setList i list).reservedFreeListIndex =
        (p.setList i list).heapFreeListCount ∧
          previous.le chunk.splitCandidatePreviousEntry := fun _ => hfound
    unfold splitAt
    dsimp only
    rw [if_pos hfound, if_pos (hfound' _)]
    split <;> exact ⟨rfl, rfl, rfl, rfl⟩
  · have hfound' : ∀ list, ¬((p.setList i list).reservedFreeListIndex =
        (p.setList i list).heapFreeListCount ∧
          previous.le chunk.splitCandidatePreviousEntry) := fun _ => hfound
    unfold splitAt
    dsimp only
    rw [if_neg hfound, if_neg (hfound' _)]
    exact ⟨rfl, rfl, rfl, rfl⟩

end SplitAt

/-- A cut in front of an entry of the current list that is not its head. -/
theorem Cutting.splitAt (h : Cutting l xs e p i done) (hord : AddressOrdered l)
    (hl : l = xs ++ e :: ys) (hi : i + 1 < p.heapFreeListCount) {chunk : SplitChunk}
    {e' : Extent} {ys' : List Extent} (hcut : l = (done ++ m) ++ e' :: ys') (hm : m ≠ [])
    (hprev : chunk.splitCandidatePreviousEntry = Link.last (done ++ m)) :
    Cutting l xs e (p.splitAt (Link.last xs) chunk e'.base i (totalSize m) m.length) (i + 1)
      (done ++ m) := by
  have hentries : p.entries i = m ++ e' :: ys' := by
    rw [h.current, List.append_assoc] at hcut
    exact List.append_cancel_left hcut
  have hordi : AddressOrdered (p.entries i) := (h.current ▸ hord).right
  have hlast : Link.last (done ++ m) = Link.last m := by
    cases m with
    | nil => exact absurd rfl hm
    | cons a m => exact Link.last_append_cons ..
  have hset : (p.heapFreeLists i).setNext [] chunk.splitCandidatePreviousEntry = m := by
    rw [hprev, hlast, (p.heapFreeLists i).setNext_last hordi hentries, List.append_nil]
  have hdrop : ((p.heapFreeLists i).freeList.dropWhile fun x => x.base ≠ e'.base) = e' :: ys' := by
    have hlist : (p.heapFreeLists i).freeList = m ++ e' :: ys' := hentries
    rw [hlist, List.dropWhile_append_of_pos fun a ha => ?_]
    · simp
    · have := (hentries ▸ hordi).cut_lt ha (List.mem_cons_self (a := e'))
      simpa using this.ne
  have hlists := p.splitAt_heapFreeLists (Link.last xs) chunk e'.base i (totalSize m) m.length
  have hshape := p.splitAt_sameShape (Link.last xs) chunk e'.base i (totalSize m) m.length
  have hreserved := p.splitAt_sameReserved (Link.last xs) chunk e'.base i (totalSize m) m.length
  rw [hset, hdrop] at hlists
  rw [hprev] at hreserved
  generalize p.splitAt (Link.last xs) chunk e'.base i (totalSize m) m.length = p'
    at hlists hshape hreserved ⊢
  have hcount := hshape.count
  have hne : i ≠ i + 1 := by omega
  have hnext : p'.heapFreeLists (i + 1) =
      { p.heapFreeLists (i + 1) with freeList := e' :: ys' } := by
    rw [hlists, Function.update_self]
  have hself : p'.heapFreeLists i = { p.heapFreeLists i with
      freeCount := m.length, freeSize := totalSize m, freeList := m } := by
    rw [hlists, Function.update_of_ne hne, Function.update_self]
  have hother : ∀ j, j ≠ i → j ≠ i + 1 → p'.heapFreeLists j = p.heapFreeLists j := by
    intro j hj hj'
    rw [hlists, Function.update_of_ne hj', Function.update_of_ne hj]
  have hall : p'.allEntries = p.allEntries := by
    refine allEntries_cut hi hcount ?_ fun j hj hj' => by rw [entries, hother j hj hj', entries]
    rw [hentries, h.later (i + 1) (by omega), entries, entries, hself, hnext, List.append_nil]
  refine ⟨hcount ▸ hi, hall.trans h.all, ?_, fun j hj => ?_, fun j hj => ?_, ?_, ?_, fun j => ?_⟩
  · rw [entries, hnext]
    exact hcut
  · rw [entries, hother j (by omega) (by omega)]
    exact h.later j (by omega)
  · by_cases hji : j = i
    · rw [hji, Counted, entries, hself]
      exact ⟨rfl, rfl⟩
    · rw [Counted, entries, hother j hji hj]
      exact h.counted j hji
  · rw [hreserved.size, ← h.size]
    split
    · split <;> rfl
    · rfl
  · obtain ⟨hidx, hdone⟩ | ⟨k, us, vs, hn, hk, hus⟩ := h.reserved
    · -- the reserved entry is found if the cut is behind it or in front of it
      have hle := last_le_last_iff hord hl hcut
      have heq := last_eq_last_iff hord hl hcut
      obtain hlt | hge := Nat.lt_or_ge (done ++ m).length xs.length
      · rw [if_neg (fun hc => absurd (hle.1 hc.2) (not_le.2 hlt))] at hreserved
        exact Or.inl ⟨(hreserved.index.trans hidx).trans hcount.symm, Or.inr hlt⟩
      · rw [if_pos ⟨hidx, hle.2 hge⟩] at hreserved
        right
        by_cases hsame : xs = done ++ m
        · rw [if_pos (heq.2 hsame)] at hreserved
          have hcut' : (done ++ m) ++ e :: ys = (done ++ m) ++ e' :: ys' := by
            rw [← hcut, ← hsame, hl]
          obtain ⟨rfl, rfl⟩ := List.cons.inj (List.append_cancel_left hcut')
          refine ⟨i + 1, [], ys, ⟨hreserved.avaliable, hreserved.index, hcount ▸ hi, ?_,
            hreserved.previous, hreserved.size.trans h.size⟩, le_rfl, fun _ => rfl⟩
          rw [entries, hnext]
          rfl
        · rw [if_neg (fun hc => hsame (heq.1 hc))] at hreserved
          obtain ⟨t, ht, hys⟩ := append_cases (hl.symm.trans hcut) hge
          cases t with
          | nil => exact absurd (by simpa using ht.symm) hsame
          | cons x t =>
            obtain ⟨rfl, -⟩ := List.cons.inj hys
            have hpre : done ++ m = xs ++ e :: t := ht
            obtain ⟨us, hus, hm'⟩ := append_cases hpre (by
              obtain rfl | hlt := hdone
              · simp
              · exact hlt.le)
            refine ⟨i, us, t, ⟨hreserved.avaliable, hreserved.index, hcount ▸ h.index_lt, ?_, ?_,
              hreserved.size.trans h.size⟩, by omega, by omega⟩
            · rw [entries, hself]
              exact hm'
            · exact hreserved.previous.trans (last_of_done hdone hus)
    · have hlt := hn.index_lt
      rw [if_neg (fun hc => by have := hc.1; have := hn.index; omega)] at hreserved
      right
      by_cases hki : k = i
      · obtain rfl := hus hki
        subst hki
        rw [hn.entries_eq, List.nil_append] at hentries
        cases m with
        | nil => exact absurd rfl hm
        | cons a m =>
          obtain ⟨rfl, -⟩ := List.cons.inj hentries
          refine ⟨k, [], m, ⟨hreserved.avaliable.trans hn.avaliable, hreserved.index.trans hn.index,
            hcount ▸ hlt, ?_, hreserved.previous.trans hn.previous, hreserved.size.trans hn.size⟩,
            by omega, fun _ => rfl⟩
          rw [entries, hself]
          rfl
      · refine ⟨k, us, vs, ⟨hreserved.avaliable.trans hn.avaliable, hreserved.index.trans hn.index,
          hcount ▸ hlt, ?_, hreserved.previous.trans hn.previous, hreserved.size.trans hn.size⟩,
          by omega, by omega⟩
        rw [entries, hother k hki (by omega)]
        exact hn.entries_eq
  · by_cases hji : j = i
    · rw [hji, hself]
      exact h.hints i
    · by_cases hj' : j = i + 1
      · rw [hj', hnext]
        exact h.hints (i + 1)
      · rw [hother j hji hj']
        exact h.hints j

/-- The loop of `postProcess` over the chunks. It ends where the size to split at is positive: the
candidate that is the head of the list is then not cut at. -/
theorem splitChunks_spec (hord : AddressOrdered l) (hl : l = xs ++ e :: ys) (splitSize : ℕ)
    {chunks : List SplitChunk} : ∀ {p : SplitPool} {i : ℕ} {done : List Extent},
      Cutting l xs e p i done →
      (∀ chunk ∈ chunks, chunk.IsCandidate → ∃ zs, chunk.CandidateAfter l zs ∧
        (done = [] ∨ done.length < zs.length)) →
      (chunks.Pairwise fun a b => a.IsCandidate → b.IsCandidate →
        a.accumulatedFreeHoles < b.accumulatedFreeHoles) →
      (0 < splitSize → ∃ r, splitChunks splitSize (Link.last xs) chunks p i (totalSize done)
        done.length = some r) ∧
      ∀ p' i' size holes, splitChunks splitSize (Link.last xs) chunks p i (totalSize done)
          done.length = some (p', i', size, holes) →
        SameShape p p' ∧ ∃ done', Cutting l xs e p' i' done' ∧ size = totalSize done' ∧
          holes = done'.length := by
  induction chunks with
  | nil =>
    intro p i done h _ _
    refine ⟨fun _ => ⟨_, rfl⟩, fun p' i' size holes hr => ?_⟩
    cases hr
    exact ⟨⟨rfl, rfl, rfl⟩, done, h, rfl, rfl⟩
  | cons chunk chunks ih =>
    intro p i done h hcand hinc
    obtain ⟨hfirst, hinc⟩ := List.pairwise_cons.1 hinc
    have hskip := ih h (fun c hc => hcand c (List.mem_cons_of_mem _ hc)) hinc
    unfold splitChunks
    split
    · refine ⟨fun _ => ⟨_, rfl⟩, fun p' i' size holes hr => ?_⟩
      cases hr
      exact ⟨⟨rfl, rfl, rfl⟩, done, h, rfl, rfl⟩
    · rename_i hroom
      split
      · rename_i c hown hc
        have hiscand : chunk.IsCandidate := ⟨hown, by rw [hc]; simp⟩
        obtain ⟨zs, ⟨⟨e', ys', hzs, he'⟩, hprev, hsize, hholes⟩, hafter⟩ :=
          hcand chunk (List.mem_cons_self ..) hiscand
        obtain rfl : e'.base = c := Option.some.inj (he'.symm.trans hc)
        dsimp only
        split
        · rename_i hle
          split
          · rename_i hnull
            -- the head of the list: no bytes are in front of it
            refine ⟨fun hpos => ?_, fun p' i' size holes hr => nomatch hr⟩
            rw [hprev] at hnull
            obtain rfl | ⟨us, a, rfl⟩ := List.eq_nil_or_concat zs
            · rw [hsize, totalSize_nil] at hle
              omega
            · rw [List.concat_eq_append, Link.last_concat] at hnull
              cases hnull
          · rename_i hnull
            have hlt : done.length < zs.length := by
              obtain rfl | hlt := hafter
              · cases zs with
                | nil => exact absurd hprev hnull
                | cons z zs => simp
              · exact hlt
            obtain ⟨m, rfl, hcur⟩ := append_cases (h.current.symm.trans hzs) hlt.le
            have hm : m ≠ [] := by
              rintro rfl
              simp at hlt
            have hcut := h.splitAt hord hl (by omega) hzs hm hprev
            have hshape := p.splitAt_sameShape (Link.last xs) chunk e'.base i (totalSize m) m.length
            have hsize' : chunk.accumulatedFreeSize - totalSize done = totalSize m := by
              rw [hsize, totalSize_append]
              omega
            have hholes' : chunk.accumulatedFreeHoles - done.length = m.length := by
              rw [hholes, List.length_append]
              omega
            have hnext := ih hcut (fun c hc hcc => ?_) hinc
            · rw [hsize', hholes', hsize, hholes]
              refine ⟨hnext.1, fun p' i' size holes hr => ?_⟩
              obtain ⟨hshape', hend⟩ := hnext.2 p' i' size holes hr
              exact ⟨hshape.trans hshape', hend⟩
            · obtain ⟨ws, hws, -⟩ := hcand c (List.mem_cons_of_mem _ hc) hcc
              have := hfirst c hc hiscand hcc
              exact ⟨ws, hws, Or.inr (by rw [← hholes, ← hws.holes]; exact this)⟩
        · exact hskip
      · exact hskip

/-- The end of `postProcess` after a sweep: the last list gets what is left of the counters, and the
reserved entry is there if it was not found before. -/
theorem Cutting.divided (h : Cutting l xs e p i done)
    (hl : l = xs ++ e :: ys) {bytes holes : ℕ} (hbytes : bytes = totalSize l)
    (hholes : holes = l.length) {q : SplitPool}
    (hq : (if p.reservedFreeListIndex = p.heapFreeListCount then
      p.setReserved p.reservedFreeEntrySize i (Link.last xs) else p) = q) :
    Divided l (q.setList i { q.heapFreeLists i with
        freeSize := bytes - totalSize done, freeCount := holes - done.length }) ∧
      SameShape p (q.setList i { q.heapFreeLists i with
        freeSize := bytes - totalSize done, freeCount := holes - done.length }) := by
  have hlists : q.heapFreeLists = p.heapFreeLists := by
    rw [← hq]
    split <;> rfl
  have hshape : SameShape p q := by
    rw [← hq]
    split <;> exact ⟨rfl, rfl, rfl⟩
  have hres : ∃ k us vs, q.Names k us e vs := by
    obtain ⟨hidx, hdone⟩ | ⟨k, us, vs, hn, -⟩ := h.reserved
    · rw [if_pos hidx] at hq
      obtain ⟨us, hus, hcur⟩ := append_cases (h.current.symm.trans hl) (by
        obtain rfl | hlt := hdone
        · simp
        · exact hlt.le)
      subst hq
      exact ⟨i, us, ys, rfl, rfl, h.index_lt, hcur, last_of_done hdone hus, h.size⟩
    · have hidx : p.reservedFreeListIndex ≠ p.heapFreeListCount := by
        rw [hn.index]
        exact hn.index_lt.ne
      rw [if_neg hidx] at hq
      subst hq
      exact ⟨k, us, vs, hn⟩
  generalize hp' : q.setList i { q.heapFreeLists i with
    freeSize := bytes - totalSize done, freeCount := holes - done.length } = p'
  have hself : p'.heapFreeLists i = { q.heapFreeLists i with
      freeSize := bytes - totalSize done, freeCount := holes - done.length } := by
    rw [← hp', heapFreeLists_setList_self]
  have hother : ∀ j, j ≠ i → p'.heapFreeLists j = p.heapFreeLists j := by
    intro j hj
    rw [← hp', heapFreeLists_setList_of_ne _ _ hj, hlists]
  have hentries : ∀ j, p'.entries j = p.entries j := by
    intro j
    by_cases hj : j = i
    · rw [hj, entries, hself, entries, ← hlists]
    · rw [entries, hother j hj, entries]
  have hshape' : SameShape p p' := by
    rw [← hp']
    exact ⟨hshape.count, hshape.minimum, hshape.thread⟩
  refine ⟨⟨(allEntries_congr hshape'.count hentries).trans h.all, fun j _ => ?_, ?_, fun j => ?_⟩,
    hshape'⟩
  · by_cases hj : j = i
    · have htotal : totalSize l = totalSize done + totalSize (p.entries i) := by
        rw [← totalSize_append, ← h.current]
      have hlength : l.length = done.length + (p.entries i).length := by
        rw [← List.length_append, ← h.current]
      rw [hj, Counted, hself, hentries]
      dsimp only
      omega
    · rw [Counted, hother j hj, hentries]
      exact h.counted j hj
  · obtain ⟨k, us, vs, hn⟩ := hres
    have hfields : SameReserved q p' := by
      rw [← hp']
      exact ⟨rfl, rfl, rfl, rfl⟩
    refine ⟨k, e, us, vs, hfields.avaliable.trans hn.avaliable, hfields.index.trans hn.index, ?_, ?_,
      hfields.previous.trans hn.previous, hfields.size.trans hn.size⟩
    · have := hn.index_lt
      rwa [hshape'.count, ← hshape.count]
    · rw [hentries, entries, ← hlists]
      exact hn.entries_eq
  · by_cases hj : j = i
    · rw [hj, hself, hlists]
      exact h.hints i
    · rw [hother j hj]
      exact h.hints j

/-- A pool after `reset` and the building of the list `l` at the index `k`. The counters of that
list are of no account unless it is empty. -/
structure Built (p : SplitPool) (k : ℕ) (l : List Extent) : Prop where
  count_pos : 0 < p.heapFreeListCount
  thread_lt : ∀ j < p.heapFreeListCount, p.currentThreadFreeList j < p.heapFreeListCount
  ordered : AddressOrdered l
  current : p.entries k = l
  other : ∀ j, j ≠ k → p.entries j = []
  counted : ∀ j, j ≠ k ∨ l = [] → p.Counted j
  reset : p.IsReset
  hints : p.NoHints

/-- The list that is built before `postProcess`: a compaction builds the last one. -/
def Cause.list (count : ℕ) : Cause → ℕ
  | .forCompact => count - 1
  | _ => 0

/-- After a compaction the list is moved to the front. -/
theorem Built.moveCompacted {k : ℕ} (h : Built p k l) (hk : k ≠ 0)
    (hlast : k = p.heapFreeListCount - 1) : Built p.moveCompacted 0 l := by
  subst hlast
  generalize hp' : p.moveCompacted = p'
  have hlast : p'.heapFreeLists (p.heapFreeListCount - 1) =
      { p.heapFreeLists (p.heapFreeListCount - 1) with
        freeList := [], freeCount := 0, freeSize := 0 } := by
    rw [← hp', SplitPool.moveCompacted]
    exact heapFreeLists_setList_self ..
  have hfirst : p'.heapFreeLists 0 = { p.heapFreeLists 0 with
      freeList := (p.heapFreeLists (p.heapFreeListCount - 1)).freeList
      freeCount := (p.heapFreeLists (p.heapFreeListCount - 1)).freeCount
      freeSize := (p.heapFreeLists (p.heapFreeListCount - 1)).freeSize } := by
    rw [← hp', SplitPool.moveCompacted]
    exact (heapFreeLists_setList_of_ne _ _ (Ne.symm hk)).trans (heapFreeLists_setList_self ..)
  have hother : ∀ j, j ≠ 0 → j ≠ p.heapFreeListCount - 1 →
      p'.heapFreeLists j = p.heapFreeLists j := by
    intro j hj hj'
    rw [← hp', SplitPool.moveCompacted]
    exact (heapFreeLists_setList_of_ne _ _ hj').trans (heapFreeLists_setList_of_ne _ _ hj)
  have hfields : SameShape p p' ∧ SameReserved p p' := by
    rw [← hp']
    exact ⟨⟨rfl, rfl, rfl⟩, rfl, rfl, rfl, rfl⟩
  obtain ⟨⟨hcount, -, hthread⟩, hav, hidx, hprev, hsize⟩ := hfields
  refine ⟨hcount ▸ h.count_pos, ?_, h.ordered, ?_, fun j hj => ?_, fun j hj => ?_, ?_, fun j => ?_⟩
  · rw [hcount, hthread]
    exact h.thread_lt
  · rw [entries, hfirst]
    exact h.current
  · by_cases hj' : j = p.heapFreeListCount - 1
    · rw [hj', entries, hlast]
    · rw [entries, hother j hj hj']
      exact h.other j hj'
  · by_cases hj' : j = p.heapFreeListCount - 1
    · rw [hj', Counted, entries, hlast]
      exact ⟨rfl, rfl⟩
    · by_cases hj0 : j = 0
      · have hnil := hj.resolve_left (fun hne => hne hj0)
        rw [hj0, Counted, entries, hfirst]
        exact h.counted _ (Or.inr hnil)
      · rw [Counted, entries, hother j hj0 hj']
        exact h.counted j (Or.inl hj')
  · have := h.reset
    exact ⟨hav.trans this.avaliable, (hidx.trans this.index).trans hcount.symm,
      hprev.trans this.previous, hsize.trans this.size⟩
  · by_cases hj' : j = p.heapFreeListCount - 1
    · rw [hj', hlast]
      exact h.hints _
    · by_cases hj0 : j = 0
      · rw [hj0, hfirst]
        exact h.hints 0
      · rw [hother j hj0 hj']
        exact h.hints j

/-- All entries of a pool that has one list. -/
theorem Built.allEntries_eq (h : Built p 0 l) : p.allEntries = l := by
  obtain ⟨n, hn⟩ := Nat.exists_eq_succ_of_ne_zero h.count_pos.ne'
  unfold allEntries
  rw [hn, List.range_succ_eq_map, List.flatMap_cons, h.current,
    List.flatMap_eq_nil_iff.2 fun j hj => ?_, List.append_nil]
  obtain ⟨k, -, rfl⟩ := List.mem_map.1 hj
  exact h.other _ (Nat.succ_ne_zero k)

/-- The counters of the list that is to be divided may be anything. -/
theorem Built.setCounters (h : Built p 0 l) (hl : l ≠ []) (size count : ℕ) :
    Built (p.setList 0 { p.heapFreeLists 0 with freeSize := size, freeCount := count }) 0 l := by
  generalize hp' : p.setList 0 { p.heapFreeLists 0 with freeSize := size, freeCount := count } = p'
  have hself : p'.heapFreeLists 0 =
      { p.heapFreeLists 0 with freeSize := size, freeCount := count } := by
    rw [← hp', heapFreeLists_setList_self]
  have hother : ∀ j, j ≠ 0 → p'.heapFreeLists j = p.heapFreeLists j := by
    intro j hj
    rw [← hp', heapFreeLists_setList_of_ne _ _ hj]
  have hfields : p'.heapFreeListCount = p.heapFreeListCount ∧
      p'.currentThreadFreeList = p.currentThreadFreeList ∧ SameReserved p p' := by
    rw [← hp']
    exact ⟨rfl, rfl, rfl, rfl, rfl, rfl⟩
  obtain ⟨hcount, hthread, hav, hidx, hprev, hsize⟩ := hfields
  refine ⟨hcount ▸ h.count_pos, ?_, h.ordered, ?_, fun j hj => ?_, fun j hj => ?_, ?_, fun j => ?_⟩
  · rw [hcount, hthread]
    exact h.thread_lt
  · rw [entries, hself]
    exact h.current
  · rw [entries, hother j hj]
    exact h.other j hj
  · rw [Counted, entries, hother j (hj.resolve_right hl)]
    exact h.counted j hj
  · have := h.reset
    exact ⟨hav.trans this.avaliable, (hidx.trans this.index).trans hcount.symm,
      hprev.trans this.previous, hsize.trans this.size⟩
  · obtain rfl | hj := Nat.eq_zero_or_pos j
    · rw [hself]
      exact h.hints 0
    · rw [hother j hj.ne']
      exact h.hints j

/-- `postProcess` after a sweep divides the list. -/
theorem splitAfterSweep_spec {sweep : SweepPoolState} (h : Built p 0 l) (hsweep : sweep.Of l) :
    (p.heapFreeListCount ≤ totalSize l → ∃ p', p.splitAfterSweep sweep = some p') ∧
      ∀ p', p.splitAfterSweep sweep = some p' → Divided l p' ∧ SameShape p p' := by
  obtain ⟨xs, e, ys, hl, hprev, hlargest⟩ := hsweep.largest
  have hbytes := hsweep.sweepFreeBytes
  have hord := h.ordered
  have hcounters := h.setCounters (by simp [hl]) sweep.sweepFreeBytes sweep.sweepFreeHoles
  unfold splitAfterSweep
  dsimp only
  generalize hq : p.setList 0 { p.heapFreeLists 0 with
    freeSize := sweep.sweepFreeBytes, freeCount := sweep.sweepFreeHoles } = q at hcounters
  have hcount : q.heapFreeListCount = p.heapFreeListCount := by rw [← hq]; rfl
  have hassert : ¬(0 < sweep.largestFreeEntry ∧
      ((q.heapFreeLists 0).next sweep.previousLargestFreeEntry).head?.map Extent.size ≠
        some sweep.largestFreeEntry) := by
    rintro ⟨-, hne⟩
    refine hne ?_
    have hordq : AddressOrdered (q.heapFreeLists 0).freeList := by
      show AddressOrdered (q.entries 0)
      rwa [hcounters.current]
    rw [hprev, (q.heapFreeLists 0).next_last hordq (hcounters.current.trans hl), hlargest]
    rfl
  rw [if_neg hassert, hprev]
  have hstart : Cutting l xs e { q with reservedFreeEntrySize := sweep.largestFreeEntry } 0 [] :=
    ⟨hcounters.count_pos, hcounters.allEntries_eq, hcounters.current.symm,
      fun j hj => hcounters.other j hj.ne', fun j hj => hcounters.counted j (Or.inl hj), hlargest,
      Or.inl ⟨hcounters.reset.index, Or.inl rfl⟩, hcounters.hints⟩
  obtain ⟨htotal, hspec⟩ := splitChunks_spec hord hl (sweep.sweepFreeBytes / q.heapFreeListCount)
    hstart (fun chunk hc hcand => (hsweep.candidates chunk hc hcand).imp
      fun zs hzs => ⟨hzs, Or.inl rfl⟩) hsweep.increasing
  rw [totalSize_nil, List.length_nil] at htotal hspec
  have hshape : SameShape p { q with reservedFreeEntrySize := sweep.largestFreeEntry } := by
    rw [← hq]
    exact ⟨rfl, rfl, rfl⟩
  cases hr : splitChunks (sweep.sweepFreeBytes / q.heapFreeListCount) (Link.last xs) sweep.chunks
      { q with reservedFreeEntrySize := sweep.largestFreeEntry } 0 0 0 with
  | none =>
    refine ⟨fun hle => ?_, fun p' hp' => nomatch hp'⟩
    rw [← hcount, ← hbytes] at hle
    obtain ⟨r, hr'⟩ := htotal (Nat.div_pos hle hcounters.count_pos)
    cases hr.symm.trans hr'
  | some r =>
    obtain ⟨p₁, i, size, holes⟩ := r
    obtain ⟨hshape₁, done, hcut, rfl, rfl⟩ := hspec p₁ i size holes hr
    refine ⟨fun _ => ⟨_, rfl⟩, fun p' hp' => ?_⟩
    cases hp'
    obtain ⟨hdiv, hshape₂⟩ := hcut.divided hl hbytes hsweep.sweepFreeHoles rfl
    exact ⟨hdiv, (hshape.trans hshape₁).trans hshape₂⟩

/-- The end of `postProcess`: the assertions hold, and with the threads the invariant does. -/
theorem Divided.finish (h : Divided l p) (hord : AddressOrdered l) :
    ∃ p', p.finishPostProcess = some p' ∧ p'.Sound ∧ p'.allEntries = l ∧
      p'.minimumFreeEntrySize = p.minimumFreeEntrySize := by
  obtain ⟨i, e, us, vs, hn⟩ := h.reserved
  have hpos : 0 < p.heapFreeListCount := by
    have := hn.index_lt
    omega
  generalize hp' : ({ p with
    currentThreadFreeList := fun i =>
      if i < p.heapFreeListCount then i else p.currentThreadFreeList i } : SplitPool) = p'
  have hn' : p'.Names i us e vs := by
    rw [← hp']
    exact ⟨hn.avaliable, hn.index, hn.index_lt, hn.entries_eq, hn.previous, hn.size⟩
  have hall : p'.allEntries = l := by
    rw [← hp']
    exact h.all
  have hsound : p'.Sound := by
    refine sound_of_allEntries ?_ ?_ (hall ▸ hord) ?_ (Or.inr ⟨i, e, us, vs, hn'⟩) ?_
    · rw [← hp']
      exact hpos
    · rw [← hp']
      intro k hk
      dsimp only at hk ⊢
      rwa [if_pos hk]
    · rw [← hp']
      exact h.counted
    · rw [← hp']
      exact h.hints
  have hget : p'.getReservedFreeEntry = some (e :: vs) := by
    have hnext := (p'.heapFreeLists i).next_last (hsound.ordered i hn'.index_lt) hn'.entries_eq
    unfold getReservedFreeEntry
    rw [if_pos hn'.avaliable, hn'.index, if_pos hn'.index_lt, hn'.previous, hnext]
    dsimp only
    rw [if_pos hn'.size.symm]
  have hfinish : p.finishPostProcess = if p'.reservedFreeEntryAvaliable = false then none
      else if 0 < p'.reservedFreeEntrySize then p'.getReservedFreeEntry.map fun _ => p'
      else some p' := by
    rw [← hp']
    rfl
  refine ⟨p', ?_, hsound, hall, by rw [← hp']⟩
  rw [hfinish, if_neg (by rw [hn'.avaliable]; simp), hget]
  split <;> rfl

/-- `postProcess` that cuts at the entries divides the list. -/
theorem splitAtEntries_spec (h : Built p 0 l) (hl : l ≠ []) :
    Divided l p.splitAtEntries ∧ SameShape p p.splitAtEntries := by
  have hcounters := h.setCounters hl 0 0
  have hstart : Splitting l (p.setList 0 { p.heapFreeLists 0 with freeSize := 0, freeCount := 0 })
      0 [] (p.heapFreeLists 0).freeList :=
    ⟨hcounters.count_pos, hcounters.allEntries_eq, by simp,
      fun j hj => hcounters.other j hj.ne', fun j hj => hcounters.counted j (Or.inl hj),
      by simp, by simp, Or.inl ⟨rfl, rfl, hcounters.reset.size⟩, hcounters.hints⟩
  obtain ⟨i, passed, hend, hshape⟩ := splitEntries_spec h.ordered
    ((p.heapFreeLists 0).freeSize / p.heapFreeListCount) (p.heapFreeListCount - 1) hstart
    (Nat.sub_add_cancel h.count_pos)
  exact ⟨hend.divided hl, hshape.count, hshape.minimum, hshape.thread⟩

/-- The reserved entry of a built pool may be reset again. -/
theorem Built.resetReservedFreeEntry {k : ℕ} (h : Built p k l) :
    Built p.resetReservedFreeEntry k l :=
  ⟨h.count_pos, h.thread_lt, h.ordered, h.current, h.other, h.counted, ⟨rfl, rfl, rfl, rfl⟩,
    h.hints⟩

/-- `postProcess` establishes the invariant, and it returns; after a sweep it does if there is a
byte for every list. -/
theorem postProcess_spec {cause : Cause} {sweep : SweepPoolState}
    (h : Built p (cause.list p.heapFreeListCount) l)
    (hsweep : cause = .forSweep → l ≠ [] → sweep.Of l) :
    ((cause = .forSweep → p.heapFreeListCount ≤ totalSize l) →
        ∃ p', p.postProcess cause sweep = some p') ∧
      ∀ p', p.postProcess cause sweep = some p' →
        p'.Sound ∧ p'.allEntries = l ∧ p'.minimumFreeEntrySize = p.minimumFreeEntrySize := by
  unfold postProcess
  dsimp only
  generalize hq : (if cause = .forCompact ∧ p.heapFreeListCount - 1 ≠ 0 then p.moveCompacted
    else p) = q
  have hcount : q.heapFreeListCount = p.heapFreeListCount ∧
      q.minimumFreeEntrySize = p.minimumFreeEntrySize := by
    rw [← hq]
    split <;> exact ⟨rfl, rfl⟩
  have hbuilt : Built q 0 l := by
    rw [← hq]
    split
    · rename_i hc
      obtain ⟨rfl, hne⟩ := hc
      exact h.moveCompacted hne rfl
    · rename_i hc
      have hzero : cause.list p.heapFreeListCount = 0 := by
        cases cause with
        | forCompact => simpa [Cause.list] using hc
        | forSweep => rfl
        | any => rfl
      exact hzero ▸ h
  clear hq
  rw [hbuilt.current]
  split
  · rename_i hnil
    refine ⟨fun _ => ⟨q, rfl⟩, fun p' hp' => ?_⟩
    cases hp'
    exact ⟨sound_of_allEntries hbuilt.count_pos hbuilt.thread_lt
      (hbuilt.allEntries_eq ▸ hbuilt.ordered) (fun i _ => hbuilt.counted i (Or.inr hnil))
      (Or.inl hbuilt.reset) hbuilt.hints, hbuilt.allEntries_eq, hcount.2⟩
  · rename_i hl
    have hfinish : ∀ {p₁ : SplitPool}, Divided l p₁ → SameShape q.resetReservedFreeEntry p₁ →
        ∃ p', p₁.finishPostProcess = some p' ∧ p'.Sound ∧ p'.allEntries = l ∧
          p'.minimumFreeEntrySize = p.minimumFreeEntrySize := by
      intro p₁ hdiv hshape
      obtain ⟨p', hp', hsound, hall, hmin⟩ := hdiv.finish hbuilt.ordered
      exact ⟨p', hp', hsound, hall, (hmin.trans hshape.minimum).trans hcount.2⟩
    split
    · rename_i hforSweep
      obtain ⟨htotal, hspec⟩ := splitAfterSweep_spec hbuilt.resetReservedFreeEntry
        (hsweep hforSweep hl)
      refine ⟨fun hle => ?_, fun p' hp' => ?_⟩
      · obtain ⟨p₁, h₁⟩ := htotal (hcount.1.trans_le (hle hforSweep))
        obtain ⟨hdiv, hshape⟩ := hspec p₁ h₁
        obtain ⟨p', hp', -⟩ := hfinish hdiv hshape
        exact ⟨p', by rw [h₁]; exact hp'⟩
      · obtain ⟨p₁, h₁, hp₁⟩ := Option.bind_eq_some_iff.1 hp'
        obtain ⟨hdiv, hshape⟩ := hspec p₁ h₁
        obtain ⟨p₂, hp₂, hresult⟩ := hfinish hdiv hshape
        obtain rfl := Option.some.inj (hp₁.symm.trans hp₂)
        exact hresult
    · obtain ⟨hdiv, hshape⟩ := splitAtEntries_spec hbuilt.resetReservedFreeEntry hl
      obtain ⟨p₂, hp₂, hresult⟩ := hfinish hdiv hshape
      refine ⟨fun _ => ⟨p₂, hp₂⟩, fun p' hp' => ?_⟩
      obtain rfl := Option.some.inj (hp'.symm.trans hp₂)
      exact hresult

end OMR.GC.SplitPool
