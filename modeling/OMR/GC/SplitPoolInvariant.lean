import Mathlib.Tactic
import OMR.GC.MemoryPoolSplitAddressOrderedList
import OMR.GC.PoolTransitions

/-!
# The invariant of the split pool

Every list is ordered and correctly counted, the lists have no byte in common, the
reserved entry is where the pool says, and no hint leads past an entry that the search
for more than the hint's size could use. The reserved entry is exempt from the last of
these, as the search passes over it in any case.
-/

namespace OMR.GC

open OMR.Lib

/-- The place of an entry on an ordered list is known by the entry. -/
theorem AddressOrdered.split_unique {xs ys xs' ys' : List Extent} {e : Extent}
    (h : AddressOrdered (xs ++ e :: ys)) (heq : xs ++ e :: ys = xs' ++ e :: ys') :
    xs = xs' ∧ ys = ys' := by
  have hnot : ∀ {zs ws : List Extent}, AddressOrdered (zs ++ e :: ws) → e ∉ zs ∧ e ∉ ws := by
    intro zs ws ho
    have hpos := ho.size_pos e (by simp)
    obtain ⟨hlo, hhi⟩ := ho.around
    refine ⟨fun hm => ?_, fun hm => ?_⟩
    · have := hlo e hm
      simp only [Extent.top] at this
      omega
    · have := hhi e hm
      simp only [Extent.top] at this
      omega
  have h' := heq ▸ h
  induction xs generalizing xs' with
  | nil =>
    cases xs' with
    | nil => exact ⟨rfl, (List.cons.inj heq).2⟩
    | cons a xs' =>
      obtain ⟨rfl, -⟩ := List.cons.inj heq
      exact absurd (List.mem_cons_self ..) (hnot h').1
  | cons a xs ih =>
    cases xs' with
    | nil =>
      obtain ⟨rfl, -⟩ := List.cons.inj heq
      exact absurd (List.mem_cons_self ..) (hnot h).1
    | cons b xs' =>
      obtain ⟨rfl, htail⟩ := List.cons.inj heq
      obtain ⟨rfl, rfl⟩ := ih (AddressOrdered.cons_iff.1 h).2.1 htail
        (AddressOrdered.cons_iff.1 h').2.1
      exact ⟨rfl, rfl⟩

namespace Link

@[simp] theorem last_nil : last [] = null := rfl

@[simp] theorem last_concat (xs : List Extent) (e : Extent) : last (xs ++ [e]) = entry e.base := by
  simp [last]

theorem last_append_cons (xs ys : List Extent) (e : Extent) :
    last (xs ++ e :: ys) = last (e :: ys) := by
  simp [last, List.getLast?_append, List.getLast?_cons]

/-- A link to an entry is the link to the last one of a list that ends in it. -/
theorem last_eq_entry {xs : List Extent} {a : ℕ} (h : last xs = entry a) :
    ∃ l e, xs = l ++ [e] ∧ e.base = a := by
  obtain rfl | ⟨l, e, rfl⟩ := List.eq_nil_or_concat xs
  · cases h
  · rw [List.concat_eq_append, last_concat] at h
    exact ⟨l, e, List.concat_eq_append .., Link.entry.inj h⟩

end Link

namespace FreeList

variable {list : FreeList} {xs ys : List Extent}

theorem next_last (hord : AddressOrdered list.freeList) (h : list.freeList = xs ++ ys) :
    list.next (Link.last xs) = ys := by
  obtain rfl | ⟨l, e, rfl⟩ := List.eq_nil_or_concat xs
  · simpa [next] using h
  · rw [List.concat_eq_append, List.append_assoc, List.singleton_append] at h
    rw [List.concat_eq_append, Link.last_concat, next, h,
      List.dropWhile_append_of_pos fun a ha => ?_]
    · simp
    · have := (h ▸ hord).cut_lt ha (List.mem_cons_self (a := e))
      simpa using this.ne

theorem setNext_last (hord : AddressOrdered list.freeList) (h : list.freeList = xs ++ ys)
    (tail : List Extent) : list.setNext tail (Link.last xs) = xs ++ tail := by
  obtain rfl | ⟨l, e, rfl⟩ := List.eq_nil_or_concat xs
  · rfl
  · rw [List.concat_eq_append, List.append_assoc, List.singleton_append] at h
    have hne : ∀ a ∈ l, decide (a.base ≠ e.base) = true := by
      intro a ha
      have := (h ▸ hord).cut_lt ha (List.mem_cons_self (a := e))
      simpa using this.ne
    rw [List.concat_eq_append, Link.last_concat, setNext, h, List.dropWhile_append_of_pos hne,
      List.takeWhile_append_of_pos hne]
    simp

end FreeList

namespace SplitPool

variable (p : SplitPool)

/-- The reserved entry, in its place. -/
structure Names (i : ℕ) (xs : List Extent) (e : Extent) (ys : List Extent) : Prop where
  avaliable : p.reservedFreeEntryAvaliable = true
  index : p.reservedFreeListIndex = i
  index_lt : i < p.heapFreeListCount
  entries_eq : p.entries i = xs ++ e :: ys
  previous : p.previousReservedFreeEntry = Link.last xs
  size : p.reservedFreeEntrySize = e.size

/-- No entry is reserved. -/
structure IsReset : Prop where
  avaliable : p.reservedFreeEntryAvaliable = false
  index : p.reservedFreeListIndex = p.heapFreeListCount
  previous : p.previousReservedFreeEntry = Link.udataMax
  size : p.reservedFreeEntrySize = 0

/-- The entry of a list is the reserved one. -/
def IsReserved (i : ℕ) (e : Extent) : Prop := ∃ xs ys, p.Names i xs e ys

/-- A hint names an entry that is not reserved, and apart from the reserved one, no entry up
to that one is larger than the hint says. -/
def HintSound (i address hintSize : ℕ) : Prop :=
  (∃ e ∈ p.entries i, e.base = address ∧ ¬p.IsReserved i e) ∧
    ∀ e ∈ p.entries i, e.base ≤ address → p.IsReserved i e ∨ e.size ≤ hintSize

/-- The hints of a list are sound, and no two of them name the same entry. -/
structure HintsSound (i : ℕ) : Prop where
  all : (p.heapFreeLists i).hints.All (p.HintSound i)
  nodup : (p.heapFreeLists i).hints.addresses.Nodup

/-- The invariant of the pool. -/
structure Sound : Prop where
  count_pos : 0 < p.heapFreeListCount
  thread_lt : ∀ k < p.heapFreeListCount, p.currentThreadFreeList k < p.heapFreeListCount
  ordered : ∀ i < p.heapFreeListCount, AddressOrdered (p.entries i)
  disjoint : ∀ i < p.heapFreeListCount, ∀ j < p.heapFreeListCount, i ≠ j →
    Disjoint (bytesOf (p.entries i)) (bytesOf (p.entries j))
  freeSize_eq : ∀ i < p.heapFreeListCount, (p.heapFreeLists i).freeSize = totalSize (p.entries i)
  freeCount_eq : ∀ i < p.heapFreeListCount,
    (p.heapFreeLists i).freeCount = (p.entries i).length
  reserved : p.IsReset ∨ ∃ i e, p.IsReserved i e
  hints : ∀ i < p.heapFreeListCount, p.HintsSound i

variable {p}

theorem IsReset.not_isReserved (h : p.IsReset) (i : ℕ) (e : Extent) : ¬p.IsReserved i e := by
  rintro ⟨xs, ys, hn⟩
  cases h.avaliable.symm.trans hn.avaliable

/-- There is only one reserved entry. -/
theorem Names.isReserved_iff {i : ℕ} {xs ys : List Extent} {e : Extent} (h : p.Names i xs e ys)
    (hord : AddressOrdered (p.entries i)) {j : ℕ} {x : Extent} :
    p.IsReserved j x ↔ j = i ∧ x = e := by
  constructor
  · rintro ⟨xs', ys', hn⟩
    obtain rfl : j = i := hn.index.symm.trans h.index
    refine ⟨rfl, ?_⟩
    have hlist : xs ++ e :: ys = xs' ++ x :: ys' := h.entries_eq.symm.trans hn.entries_eq
    have hnext := (p.heapFreeLists j).next_last hord h.entries_eq
    have hnext' := (p.heapFreeLists j).next_last hord hn.entries_eq
    rw [← h.previous, hn.previous, hnext'] at hnext
    exact (List.cons.inj hnext).1
  · rintro ⟨rfl, rfl⟩
    exact ⟨xs, ys, h⟩

/-- The test for the reserved entry is right where the link before an entry is. -/
theorem Sound.isPrevious_iff (h : p.Sound) {i : ℕ} (hi : i < p.heapFreeListCount)
    {xs ys : List Extent} {e : Extent} (hlist : p.entries i = xs ++ e :: ys) :
    p.isPreviousReservedFreeEntry (Link.last xs) i = true ↔ p.IsReserved i e := by
  unfold isPreviousReservedFreeEntry
  rw [decide_eq_true_eq]
  constructor
  · rintro ⟨hprev, hindex⟩
    obtain hreset | ⟨j, x, xs', ys', hn⟩ := h.reserved
    · have := hreset.index
      omega
    · obtain rfl : i = j := hindex.trans hn.index
      have hnext := (p.heapFreeLists i).next_last (h.ordered i hi) hlist
      have hnext' := (p.heapFreeLists i).next_last (h.ordered i hi) hn.entries_eq
      rw [hprev, hn.previous, hnext'] at hnext
      obtain ⟨rfl, -⟩ := List.cons.inj hnext
      exact ⟨xs', ys', hn⟩
  · rintro ⟨xs', ys', hn⟩
    have heq := hlist.symm.trans hn.entries_eq
    obtain ⟨rfl, -⟩ := AddressOrdered.split_unique (hlist ▸ h.ordered i hi) heq
    exact ⟨hn.previous.symm, hn.index.symm⟩

/-- Two pools that agree but for what a search writes: hints, lockings and counters of the
allocation statistics. -/
structure Searched (p p' : SplitPool) : Prop where
  freeList : ∀ i, p'.entries i = p.entries i
  freeSize : ∀ i, (p'.heapFreeLists i).freeSize = (p.heapFreeLists i).freeSize
  freeCount : ∀ i, (p'.heapFreeLists i).freeCount = (p.heapFreeLists i).freeCount
  minimum : p'.minimumFreeEntrySize = p.minimumFreeEntrySize
  count : p'.heapFreeListCount = p.heapFreeListCount
  thread : p'.currentThreadFreeList = p.currentThreadFreeList
  avaliable : p'.reservedFreeEntryAvaliable = p.reservedFreeEntryAvaliable
  index : p'.reservedFreeListIndex = p.reservedFreeListIndex
  previous : p'.previousReservedFreeEntry = p.previousReservedFreeEntry
  size : p'.reservedFreeEntrySize = p.reservedFreeEntrySize

namespace Searched

variable {p' p'' : SplitPool}

theorem refl (p : SplitPool) : Searched p p :=
  ⟨fun _ => rfl, fun _ => rfl, fun _ => rfl, rfl, rfl, rfl, rfl, rfl, rfl, rfl⟩

theorem symm (h : Searched p p') : Searched p' p :=
  ⟨fun i => (h.freeList i).symm, fun i => (h.freeSize i).symm, fun i => (h.freeCount i).symm,
    h.minimum.symm, h.count.symm, h.thread.symm, h.avaliable.symm, h.index.symm,
    h.previous.symm, h.size.symm⟩

theorem trans (h : Searched p p') (h' : Searched p' p'') : Searched p p'' :=
  ⟨fun i => (h'.freeList i).trans (h.freeList i), fun i => (h'.freeSize i).trans (h.freeSize i),
    fun i => (h'.freeCount i).trans (h.freeCount i), h'.minimum.trans h.minimum,
    h'.count.trans h.count, h'.thread.trans h.thread, h'.avaliable.trans h.avaliable,
    h'.index.trans h.index, h'.previous.trans h.previous, h'.size.trans h.size⟩

theorem names (h : Searched p p') {i : ℕ} {xs ys : List Extent} {e : Extent}
    (hn : p.Names i xs e ys) : p'.Names i xs e ys :=
  ⟨h.avaliable.trans hn.avaliable, h.index.trans hn.index, h.count ▸ hn.index_lt,
    (h.freeList i).trans hn.entries_eq, h.previous.trans hn.previous, h.size.trans hn.size⟩

theorem isReserved_iff (h : Searched p p') (i : ℕ) (e : Extent) :
    p'.IsReserved i e ↔ p.IsReserved i e :=
  ⟨fun ⟨xs, ys, hn⟩ => ⟨xs, ys, h.symm.names hn⟩, fun ⟨xs, ys, hn⟩ => ⟨xs, ys, h.names hn⟩⟩

theorem hintSound_iff (h : Searched p p') (i a s : ℕ) :
    p'.HintSound i a s ↔ p.HintSound i a s := by
  unfold HintSound
  simp only [h.freeList i, h.isReserved_iff]

/-- The invariant goes over to what a search leaves if its hints are sound. -/
theorem sound (h : Searched p p') (hs : p.Sound)
    (hhints : ∀ i < p.heapFreeListCount, p'.HintsSound i) : p'.Sound := by
  refine ⟨h.count ▸ hs.count_pos, ?_, fun i hi => ?_, fun i hi j hj hij => ?_, fun i hi => ?_,
    fun i hi => ?_, ?_, fun i hi => hhints i (h.count ▸ hi)⟩
  · rw [h.count, h.thread]
    exact hs.thread_lt
  · rw [h.freeList]
    exact hs.ordered i (h.count ▸ hi)
  · rw [h.freeList, h.freeList]
    exact hs.disjoint i (h.count ▸ hi) j (h.count ▸ hj) hij
  · rw [h.freeSize, h.freeList]
    exact hs.freeSize_eq i (h.count ▸ hi)
  · rw [h.freeCount, h.freeList]
    exact hs.freeCount_eq i (h.count ▸ hi)
  · obtain hreset | ⟨i, e, hres⟩ := hs.reserved
    · exact Or.inl ⟨h.avaliable.trans hreset.avaliable,
        (h.index.trans hreset.index).trans h.count.symm, h.previous.trans hreset.previous,
        h.size.trans hreset.size⟩
    · exact Or.inr ⟨i, e, (h.isReserved_iff i e).2 hres⟩

end Searched

end SplitPool

end OMR.GC
