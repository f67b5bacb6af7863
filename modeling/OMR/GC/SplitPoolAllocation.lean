import Mathlib.Tactic
import OMR.GC.SplitPoolSearch

/-!
# Allocation from the split pool keeps the invariant

An allocation takes the first bytes of an entry; what is left of the entry takes its
place or is given up. The hints follow, and so does the reserved entry: it is what is
left of it when it was taken from, and it is found behind another entry when the one
before it was.
-/

namespace OMR.GC.SplitPool

open OMR.Lib

variable {p p' q : SplitPool} {i n : ℕ} {xs ys : List Extent} {e : Extent} {r : Option Extent}

/-- The entry of one list gives way to what is left of it. -/
structure Taken (p p' : SplitPool) (i : ℕ) (xs : List Extent) (e : Extent) (n : ℕ)
    (r : Option Extent) (ys : List Extent) : Prop where
  index_lt : i < p.heapFreeListCount
  entries_eq : p.entries i = xs ++ e :: ys
  entries_eq' : p'.entries i = xs ++ (r.toList ++ ys)
  other : ∀ j, j ≠ i → p'.entries j = p.entries j
  count : p'.heapFreeListCount = p.heapFreeListCount
  le_size : n ≤ e.size
  rest : ∀ x ∈ r.toList, x.base = e.base + n ∧ x.top = e.top ∧ 0 < x.size

namespace Taken

variable (ht : Taken p p' i xs e n r ys)

include ht

theorem within : ∀ x ∈ r.toList, x.Within e := by
  intro x hx
  obtain ⟨hbase, htop, -⟩ := ht.rest x hx
  exact ⟨by omega, htop.le⟩

theorem ordered_rest : AddressOrdered r.toList := by
  cases r with
  | none => exact AddressOrdered.nil
  | some x => exact AddressOrdered.singleton (ht.rest x (by simp)).2.2

theorem ordered (h : p.Sound) : ∀ j < p.heapFreeListCount, AddressOrdered (p'.entries j) := by
  intro j hj
  by_cases hji : j = i
  · subst hji
    have hord := h.ordered j hj
    rw [ht.entries_eq, ← List.singleton_append] at hord
    rw [ht.entries_eq']
    exact hord.replace ht.ordered_rest fun x hx => ⟨e, by simp, ht.within x hx⟩
  · rw [ht.other j hji]
    exact h.ordered j hj

theorem bytes_subset (h : p.Sound) (j : ℕ) (hj : j < p.heapFreeListCount) :
    bytesOf (p'.entries j) ⊆ bytesOf (p.entries j) := by
  by_cases hji : j = i
  · subst hji
    rw [ht.entries_eq, ht.entries_eq']
    exact ((ht.entries_eq ▸ h.ordered j hj).bytesOf_take ht.le_size
      fun x hx => ⟨(ht.rest x hx).1, (ht.rest x hx).2.1⟩).2
  · rw [ht.other j hji]

/-- What is handed out is free before and not free after. -/
theorem bytes_disjoint (h : p.Sound) :
    (⟨e.base, n⟩ : Extent).bytes ⊆ bytesOf (p.entries i) ∧
      Disjoint (bytesOf (p'.entries i)) (⟨e.base, n⟩ : Extent).bytes := by
  constructor
  · rw [ht.entries_eq]
    intro a ha
    have hle := ht.le_size
    obtain ⟨hlo, hhi⟩ := Extent.mem_bytes.1 ha
    simp only [Extent.top] at hlo hhi
    exact ⟨e, by simp, Extent.mem_bytes.2 ⟨hlo, by simp only [Extent.top]; omega⟩⟩
  · rw [ht.entries_eq']
    exact ((ht.entries_eq ▸ h.ordered i ht.index_lt).bytesOf_take ht.le_size
      fun x hx => ⟨(ht.rest x hx).1, (ht.rest x hx).2.1⟩).1

/-- The other entries of the list are neither the one taken from nor what is left of it. -/
theorem ne_of_mem (h : p.Sound) {x : Extent} (hx : x ∈ xs ∨ x ∈ ys) :
    x.base ≠ e.base ∧ x ∉ r.toList := by
  have hord := ht.entries_eq ▸ h.ordered i ht.index_lt
  have hpos := hord.size_pos e (by simp)
  have hle := ht.le_size
  obtain ⟨hlo, hhi⟩ := hord.around
  obtain hx | hx := hx
  · have hxpos := hord.size_pos x (by simp [hx])
    have htop := hlo x hx
    simp only [Extent.top] at htop
    refine ⟨by omega, fun hxr => ?_⟩
    have := (ht.rest x hxr).1
    omega
  · have htop := hhi x hx
    refine ⟨by simp only [Extent.top] at htop; omega, fun hxr => ?_⟩
    obtain ⟨-, hxtop, hxpos⟩ := ht.rest x hxr
    simp only [Extent.top] at htop hxtop
    omega

end Taken

/-- Where the reserved entry is after an allocation: nothing that was not touched becomes or
stops being reserved, and what is left of an entry is reserved if the entry was. -/
structure ReservedKept (p p' : SplitPool) (i : ℕ) (xs : List Extent) (e : Extent)
    (r : Option Extent) (ys : List Extent) : Prop where
  sound : p'.IsReset ∨ ∃ k x, p'.IsReserved k x
  other : ∀ j x, j ≠ i → (p'.IsReserved j x ↔ p.IsReserved j x)
  same : ∀ x, x ∈ xs ∨ x ∈ ys → (p'.IsReserved i x ↔ p.IsReserved i x)
  rest : ∀ x ∈ r.toList, (p'.IsReserved i x ↔ p.IsReserved i e)

/-- The fields of the reserved entry agree. -/
structure SameReserved (q p' : SplitPool) : Prop where
  avaliable : p'.reservedFreeEntryAvaliable = q.reservedFreeEntryAvaliable
  index : p'.reservedFreeListIndex = q.reservedFreeListIndex
  previous : p'.previousReservedFreeEntry = q.previousReservedFreeEntry
  size : p'.reservedFreeEntrySize = q.reservedFreeEntrySize

/-- A new place of the reserved entry. -/
theorem Names.kept {k : ℕ} {us vs us' vs' : List Extent} {x x' : Extent}
    (hn : p.Names k us x vs) (hn' : p'.Names k us' x' vs') (h : p.Sound)
    (ht : Taken p p' i xs e n r ys)
    (hx : (k ≠ i ∧ x' = x) ∨ (k = i ∧ x ∈ xs ++ ys ∧ x' = x) ∨ (k = i ∧ x = e ∧ r = some x')) :
    ReservedKept p p' i xs e r ys := by
  have hord := h.ordered k hn.index_lt
  have hord' := ht.ordered h k hn.index_lt
  refine ⟨Or.inr ⟨k, x', us', vs', hn'⟩, fun j y hj => ?_, fun y hy => ?_, fun y hy => ?_⟩
  · rw [hn.isReserved_iff hord, hn'.isReserved_iff hord']
    obtain ⟨-, rfl⟩ | ⟨-, -, rfl⟩ | ⟨rfl, -, -⟩ := hx
    · rfl
    · rfl
    · simp [hj]
  · rw [hn.isReserved_iff hord, hn'.isReserved_iff hord']
    obtain ⟨-, rfl⟩ | ⟨-, -, rfl⟩ | ⟨rfl, rfl, rfl⟩ := hx
    · rfl
    · rfl
    · obtain ⟨hne, hnr⟩ := ht.ne_of_mem h hy
      refine and_congr_right fun _ => ?_
      constructor
      · rintro rfl
        exact absurd (by simp) hnr
      · rintro rfl
        exact absurd rfl hne
  · rw [hn.isReserved_iff hord, hn'.isReserved_iff hord']
    obtain ⟨hk, -⟩ | ⟨-, hmem, rfl⟩ | ⟨rfl, rfl, rfl⟩ := hx
    · simp [Ne.symm hk]
    · obtain ⟨hne, hnr⟩ := ht.ne_of_mem h (List.mem_append.1 hmem)
      refine and_congr_right fun _ => ?_
      constructor
      · rintro rfl
        exact absurd hy hnr
      · rintro rfl
        exact absurd rfl hne
    · obtain rfl : y = x' := by simpa using hy
      simp

/-- Two places on one list are the same, or one is before the other. -/
theorem split_cases {us vs : List Extent} {x : Extent} (heq : us ++ x :: vs = xs ++ e :: ys) :
    (us = xs ∧ x = e ∧ vs = ys) ∨ (∃ m, us = xs ++ e :: m ∧ ys = m ++ x :: vs) ∨
      ∃ m, xs = us ++ x :: m ∧ vs = m ++ e :: ys := by
  obtain ⟨m, hxs, hm⟩ | ⟨m, hus, hm⟩ := List.append_eq_append_iff.1 heq
  · cases m with
    | nil =>
      obtain ⟨rfl, rfl⟩ := List.cons.inj hm
      exact Or.inl ⟨by simpa using hxs.symm, rfl, rfl⟩
    | cons y m =>
      obtain ⟨rfl, rfl⟩ := List.cons.inj hm
      exact Or.inr (Or.inr ⟨m, hxs, rfl⟩)
  · cases m with
    | nil =>
      obtain ⟨rfl, rfl⟩ := List.cons.inj hm
      exact Or.inl ⟨by simpa using hus, rfl, rfl⟩
    | cons y m =>
      obtain ⟨rfl, rfl⟩ := List.cons.inj hm
      exact Or.inr (Or.inl ⟨m, hus, rfl⟩)

/-- The pool after the reserved entry has been seen to. -/
structure ReservedUpdated (p q : SplitPool) : Prop where
  lists : q.heapFreeLists = p.heapFreeLists
  minimum : q.minimumFreeEntrySize = p.minimumFreeEntrySize
  count : q.heapFreeListCount = p.heapFreeListCount
  thread : q.currentThreadFreeList = p.currentThreadFreeList

/-- What `updateReserved` makes of the reserved entry is right for the pool from which the
entry has been taken. -/
theorem updateReserved_spec (h : p.Sound) {f : Found} {skip : Bool}
    (ht : Taken p p' f.curFreeList xs f.freeEntry n r f.entryNext)
    (hprev : f.previousFreeEntry = Link.last xs)
    (hskip : skip = true ↔ ¬p.IsReserved f.curFreeList f.freeEntry) :
    ∃ q, p.updateReserved f skip r = some q ∧ ReservedUpdated p q ∧
      (SameReserved q p' → ReservedKept p p' f.curFreeList xs f.freeEntry r f.entryNext) := by
  have hlt := ht.index_lt
  have htest := h.isPrevious_iff hlt ht.entries_eq
  rw [← hprev] at htest
  unfold updateReserved
  by_cases hres : p.IsReserved f.curFreeList f.freeEntry
  · -- the reserved entry itself is taken from
    have hskip' : skip = false := by
      cases skip with
      | false => rfl
      | true => exact absurd hres (hskip.1 rfl)
    rw [if_pos ⟨hskip', htest.2 hres⟩]
    obtain ⟨us, vs, hn⟩ := hres
    obtain ⟨rfl, rfl⟩ := AddressOrdered.split_unique (ht.entries_eq ▸ h.ordered _ hlt)
      (ht.entries_eq.symm.trans hn.entries_eq)
    cases r with
    | some x =>
      refine ⟨_, rfl, ⟨rfl, rfl, rfl, rfl⟩, fun hs => ?_⟩
      have hn' : p'.Names f.curFreeList xs x f.entryNext :=
        ⟨hs.avaliable.trans hn.avaliable, hs.index.trans hn.index, ht.count ▸ hlt,
          ht.entries_eq', hs.previous.trans hn.previous, hs.size⟩
      exact hn.kept hn' h ht (Or.inr (Or.inr ⟨rfl, rfl, rfl⟩))
    | none =>
      refine ⟨_, rfl, ⟨rfl, rfl, rfl, rfl⟩, fun hs => ?_⟩
      have hreset : p'.IsReset := ⟨hs.avaliable, hs.index.trans ht.count.symm, hs.previous, hs.size⟩
      refine ⟨Or.inl hreset, fun j x hj => ?_, fun x hx => ?_, by simp⟩
      · rw [hn.isReserved_iff (h.ordered _ hlt)]
        simp [hj, hreset.not_isReserved]
      · rw [hn.isReserved_iff (h.ordered _ hlt)]
        have hne : x ≠ f.freeEntry := fun hxe => (ht.ne_of_mem h hx).1 (hxe ▸ rfl)
        simp [hne, hreset.not_isReserved]
  · rw [if_neg (fun hc => hres (htest.1 hc.2))]
    obtain hreset | ⟨k, x, us, vs, hn⟩ := h.reserved
    · -- no entry is reserved
      rw [if_neg (by rw [hreset.previous]; simp)]
      refine ⟨p, rfl, ⟨rfl, rfl, rfl, rfl⟩, fun hs => ?_⟩
      have hreset' : p'.IsReset :=
        ⟨hs.avaliable.trans hreset.avaliable, (hs.index.trans hreset.index).trans ht.count.symm,
          hs.previous.trans hreset.previous, hs.size.trans hreset.size⟩
      exact ⟨Or.inl hreset', fun j x _ => by simp [hreset.not_isReserved, hreset'.not_isReserved],
        fun x _ => by simp [hreset.not_isReserved, hreset'.not_isReserved],
        fun x _ => by simp [hreset.not_isReserved, hreset'.not_isReserved]⟩
    · by_cases hki : k = f.curFreeList
      · subst hki
        obtain ⟨rfl, rfl, rfl⟩ | ⟨m, rfl, hys⟩ | ⟨m, hxs, rfl⟩ :=
          split_cases (hn.entries_eq.symm.trans ht.entries_eq)
        · exact absurd ⟨_, _, hn⟩ hres
        · -- the entry taken from is before the reserved one
          have hmem : x ∈ xs ++ f.entryNext := by simp [hys]
          cases m with
          | nil =>
            rw [if_pos (by rw [hn.previous, Link.last_concat]), if_pos hn.index.symm]
            refine ⟨_, rfl, ⟨rfl, rfl, rfl, rfl⟩, fun hs => ?_⟩
            have hn' : p'.Names f.curFreeList (xs ++ r.toList) x vs := by
              refine ⟨hs.avaliable.trans hn.avaliable, hs.index.trans hn.index, ht.count ▸ hlt,
                ?_, ?_, hs.size.trans hn.size⟩
              · rw [ht.entries_eq', hys, List.append_assoc, List.nil_append]
              · rw [hs.previous]
                cases r with
                | none => simp [hprev]
                | some y => simp
            exact hn.kept hn' h ht (Or.inr (Or.inl ⟨rfl, hmem, rfl⟩))
          | cons y m =>
            have hlast : Link.last (xs ++ f.freeEntry :: y :: m) = Link.last (y :: m) := by
              rw [Link.last_append_cons, ← List.singleton_append, Link.last_append_cons]
            have hne : Link.entry f.freeEntry.base ≠ p.previousReservedFreeEntry := by
              rw [hn.previous, hlast]
              intro heq
              obtain ⟨l, z, hl, hz⟩ := Link.last_eq_entry heq.symm
              have hzmem : z ∈ f.entryNext := by
                rw [hys, hl]
                simp
              exact (ht.ne_of_mem h (Or.inr hzmem)).1 hz
            rw [if_neg hne]
            refine ⟨p, rfl, ⟨rfl, rfl, rfl, rfl⟩, fun hs => ?_⟩
            have hn' : p'.Names f.curFreeList (xs ++ (r.toList ++ y :: m)) x vs := by
              refine ⟨hs.avaliable.trans hn.avaliable, hs.index.trans hn.index, ht.count ▸ hlt,
                ?_, ?_, hs.size.trans hn.size⟩
              · rw [ht.entries_eq', hys]
                simp
              · rw [hs.previous, hn.previous, hlast, ← List.append_assoc, Link.last_append_cons]
            exact hn.kept hn' h ht (Or.inr (Or.inl ⟨rfl, hmem, rfl⟩))
        · -- it is behind the reserved one
          have hmem : x ∈ xs ++ f.entryNext := by simp [hxs]
          have hne : Link.entry f.freeEntry.base ≠ p.previousReservedFreeEntry := by
            rw [hn.previous]
            intro heq
            obtain ⟨l, z, hl, hz⟩ := Link.last_eq_entry heq.symm
            have hzmem : z ∈ xs := by
              rw [hxs, hl]
              simp
            exact (ht.ne_of_mem h (Or.inl hzmem)).1 hz
          rw [if_neg hne]
          refine ⟨p, rfl, ⟨rfl, rfl, rfl, rfl⟩, fun hs => ?_⟩
          have hn' : p'.Names f.curFreeList us x (m ++ (r.toList ++ f.entryNext)) := by
            refine ⟨hs.avaliable.trans hn.avaliable, hs.index.trans hn.index, ht.count ▸ hlt, ?_,
              hs.previous.trans hn.previous, hs.size.trans hn.size⟩
            rw [ht.entries_eq', hxs]
            simp
          exact hn.kept hn' h ht (Or.inr (Or.inl ⟨rfl, hmem, rfl⟩))
      · -- it is on another list, where the entry before the reserved one cannot be
        have hne : Link.entry f.freeEntry.base ≠ p.previousReservedFreeEntry := by
          rw [hn.previous]
          intro heq
          obtain ⟨l, z, hl, hz⟩ := Link.last_eq_entry heq.symm
          have hzmem : z ∈ p.entries k := by
            rw [hn.entries_eq, hl]
            simp
          have hemem : f.freeEntry ∈ p.entries f.curFreeList := by simp [ht.entries_eq]
          have hzpos := (h.ordered k hn.index_lt).size_pos z hzmem
          have hepos := (h.ordered _ hlt).size_pos f.freeEntry hemem
          have hzbytes : z.base ∈ z.bytes :=
            Extent.mem_bytes.2 ⟨le_rfl, by simp only [Extent.top]; omega⟩
          have hebytes : z.base ∈ f.freeEntry.bytes :=
            Extent.mem_bytes.2 ⟨hz.symm.le, by simp only [Extent.top]; omega⟩
          exact Set.disjoint_left.1 (h.disjoint k hn.index_lt _ hlt hki) ⟨z, hzmem, hzbytes⟩
            ⟨f.freeEntry, hemem, hebytes⟩
        rw [if_neg hne]
        refine ⟨p, rfl, ⟨rfl, rfl, rfl, rfl⟩, fun hs => ?_⟩
        have hn' : p'.Names k us x vs :=
          ⟨hs.avaliable.trans hn.avaliable, hs.index.trans hn.index, ht.count ▸ hn.index_lt,
            (ht.other k hki).trans hn.entries_eq, hs.previous.trans hn.previous,
            hs.size.trans hn.size⟩
        exact hn.kept hn' h ht (Or.inl ⟨hki, rfl⟩)

section Hints

variable (ht : Taken p p' i xs e n r ys) (hk : ReservedKept p p' i xs e r ys)

include ht hk

/-- Hints of the other lists stay sound. -/
theorem HintSound.other {j a s : ℕ} (hj : j ≠ i) (hs : p.HintSound j a s) :
    p'.HintSound j a s := by
  unfold HintSound at hs ⊢
  simpa only [ht.other j hj, hk.other j _ hj] using hs

/-- What is not larger than a hint says is not larger after an allocation. -/
theorem HintSound.small {a b s : ℕ} (h : p.Sound) (hs : p.HintSound i a s)
    (hab : ∀ x ∈ p.entries i, x.base ≤ b → x ≠ e → x.base ≤ a) (he : r ≠ none → e.base ≤ b → e.base ≤ a) :
    ∀ x ∈ p'.entries i, x.base ≤ b → p'.IsReserved i x ∨ x.size ≤ s := by
  intro x hx hxb
  have hold : x ∈ xs ∨ x ∈ ys → p'.IsReserved i x ∨ x.size ≤ s := by
    intro hxy
    have hmem : x ∈ p.entries i := by
      rw [ht.entries_eq]
      obtain hx | hx := hxy <;> simp [hx]
    have hne : x ≠ e := fun hxe => (ht.ne_of_mem h hxy).1 (hxe ▸ rfl)
    rw [hk.same x hxy]
    exact hs.2 x hmem (hab x hmem hxb hne)
  rw [ht.entries_eq'] at hx
  simp only [List.mem_append] at hx
  obtain hx | hx | hx := hx
  · exact hold (Or.inl hx)
  · obtain ⟨hbase, htop, -⟩ := ht.rest x hx
    have hr : r ≠ none := by
      rintro rfl
      simp at hx
    rw [hk.rest x hx]
    refine (hs.2 e (by simp [ht.entries_eq]) (he hr (by omega))).imp_right fun hle => ?_
    simp only [Extent.top] at htop
    omega
  · exact hold (Or.inr hx)

/-- A hint of another entry stays sound. -/
theorem HintSound.shrink {a s : ℕ} (h : p.Sound) (hs : p.HintSound i a s) (ha : a ≠ e.base) :
    p'.HintSound i a s := by
  obtain ⟨x, hx, rfl, hfree⟩ := hs.1
  refine ⟨⟨x, ?_, rfl, ?_⟩, hs.small ht hk h (fun y _ hy _ => hy) fun _ hle => hle⟩
  · rw [ht.entries_eq] at hx
    rw [ht.entries_eq']
    simp only [List.mem_append, List.mem_cons] at hx ⊢
    obtain hx | rfl | hx := hx
    · exact Or.inl hx
    · exact absurd rfl ha
    · exact Or.inr (Or.inr hx)
  · rw [ht.entries_eq] at hx
    have hxy : x ∈ xs ∨ x ∈ ys := by
      simp only [List.mem_append, List.mem_cons] at hx
      obtain hx | rfl | hx := hx
      · exact Or.inl hx
      · exact absurd rfl ha
      · exact Or.inr hx
    rwa [hk.same x hxy]

/-- A hint of the entry taken from moves to what is left of it. -/
theorem HintSound.recycle {x : Extent} {s : ℕ} (h : p.Sound) (hs : p.HintSound i e.base s)
    (hx : r = some x) : p'.HintSound i x.base s := by
  have hxr : x ∈ r.toList := by simp [hx]
  obtain ⟨hbase, htop, hpos⟩ := ht.rest x hxr
  have hord := h.ordered i ht.index_lt
  have hemem : e ∈ p.entries i := by simp [ht.entries_eq]
  obtain ⟨y, hy, hye, hfree⟩ := hs.1
  obtain rfl := hord.eq_of_base_eq hy hemem hye
  refine ⟨⟨x, ?_, rfl, ?_⟩, hs.small ht hk h (fun z hz hzx hne => ?_) fun _ _ => le_rfl⟩
  · rw [ht.entries_eq']
    simp [hx]
  · rwa [hk.rest x hxr]
  · -- no other entry begins inside the one taken from
    rw [ht.entries_eq] at hz hord
    obtain ⟨hlo, hhi⟩ := hord.around
    simp only [List.mem_append, List.mem_cons] at hz
    obtain hz | rfl | hz := hz
    · have := hlo z hz
      simp only [Extent.top] at this
      omega
    · exact le_rfl
    · have := hhi z hz
      simp only [Extent.top] at this htop
      omega

end Hints

/-- A pool from which an entry has been taken is sound if the counters and the hints of the
list are. -/
theorem Taken.sound (ht : Taken p p' i xs e n r ys) (hk : ReservedKept p p' i xs e r ys)
    (h : p.Sound) (hthread : ∀ k < p.heapFreeListCount, p'.currentThreadFreeList k < p.heapFreeListCount)
    (hother : ∀ j, j ≠ i → p'.heapFreeLists j = p.heapFreeLists j)
    (hsize : (p'.heapFreeLists i).freeSize = totalSize (p'.entries i))
    (hcount : (p'.heapFreeLists i).freeCount = (p'.entries i).length)
    (hhints : p'.HintsSound i) : p'.Sound := by
  have hc := ht.count
  refine ⟨hc ▸ h.count_pos, hc ▸ hthread, hc ▸ ht.ordered h, fun j hj k hk' hjk => ?_,
    fun j hj => ?_, fun j hj => ?_, hk.sound, fun j hj => ?_⟩
  · rw [hc] at hj hk'
    exact (h.disjoint j hj k hk' hjk).mono (ht.bytes_subset h j hj) (ht.bytes_subset h k hk')
  · by_cases hji : j = i
    · rwa [hji]
    · rw [hother j hji, ht.other j hji]
      exact h.freeSize_eq j (hc ▸ hj)
  · by_cases hji : j = i
    · rwa [hji]
    · rw [hother j hji, ht.other j hji]
      exact h.freeCount_eq j (hc ▸ hj)
  · by_cases hji : j = i
    · rwa [hji]
    · have hold := h.hints j (hc ▸ hj)
      refine ⟨?_, ?_⟩
      · rw [hother j hji]
        exact hold.all.mono fun a s hs => hs.other ht hk hji
      · rw [hother j hji]
        exact hold.nodup

/-- The list is written with what is left of the entry in its place. -/
theorem taken_setList (hlt : i < p.heapFreeListCount) (hlist : p.entries i = xs ++ e :: ys)
    (hq : ReservedUpdated p q) {list : FreeList}
    (hnew : list.freeList = xs ++ (r.toList ++ ys)) (hn : n ≤ e.size)
    (hr : freeEntryIn p.minimumFreeEntrySize (e.base + n) (e.base + n + (e.size - n)) = r) :
    Taken p (q.setList i list) i xs e n r ys := by
  refine ⟨hlt, hlist, ?_, fun j hj => ?_, hq.count, hn, fun x hx => ?_⟩
  · simp [entries, setList, hnew]
  · simp [entries, setList, Function.update_of_ne hj, hq.lists]
  · obtain ⟨hbase, htop, hpos, -⟩ := Pool.freeEntryIn_eq_some (hr.trans (Option.mem_toList.1 hx))
    refine ⟨hbase, ?_, hpos⟩
    rw [htop]
    simp only [Extent.top]
    omega

theorem Taken.sound_setList (hq : ReservedUpdated p q) {list : FreeList}
    (ht : Taken p (q.setList i list) i xs e n r ys)
    (hk : ReservedKept p (q.setList i list) i xs e r ys) (h : p.Sound)
    (hsize : list.freeSize = totalSize list.freeList)
    (hcount : list.freeCount = list.freeList.length)
    (hall : list.hints.All ((q.setList i list).HintSound i)) (hnodup : list.hints.addresses.Nodup) :
    (q.setList i list).Sound := by
  have hself : (q.setList i list).heapFreeLists i = list := Function.update_self ..
  refine ht.sound hk h (fun k hk' => ?_) (fun j hj => ?_) ?_ ?_ ⟨?_, ?_⟩
  · show q.currentThreadFreeList k < _
    rw [hq.thread]
    exact h.thread_lt k hk'
  · rw [← hq.lists]
    exact Function.update_of_ne hj ..
  · rw [entries, hself, hsize]
  · rw [entries, hself, hcount]
  · rwa [hself]
  · rwa [hself]

/-- At most one hint names an entry. -/
theorem HintsSound.countP_le (h : p.HintsSound i) (a : ℕ) :
    ¬1 < (p.heapFreeLists i).hints.hintActive.countP fun hint => hint.heapFreeHeader = a := by
  have hle := List.nodup_iff_count_le_one.1 h.nodup a
  have hcount : (p.heapFreeLists i).hints.addresses.count a =
      (p.heapFreeLists i).hints.hintActive.countP fun hint => hint.heapFreeHeader = a := by
    unfold HintCache.addresses
    rw [List.count, List.countP_map]
    refine List.countP_congr fun hint _ => ?_
    simp
  omega

/-- No hint names an address inside an entry. -/
theorem Taken.not_mem_addresses (ht : Taken p p' i xs e n r ys) (h : p.Sound) (hn : 0 < n)
    {x : Extent} (hx : r = some x) : x.base ∉ (p.heapFreeLists i).hints.addresses := by
  intro hmem
  obtain ⟨hint, hhint, haddr⟩ := List.mem_map.1 hmem
  obtain ⟨y, hy, hbase, -⟩ := ((h.hints i ht.index_lt).all hint hhint).1
  obtain ⟨hxbase, hxtop, hpos⟩ := ht.rest x (by simp [hx])
  have hord := h.ordered i ht.index_lt
  rw [ht.entries_eq] at hy hord
  obtain ⟨hlo, hhi⟩ := hord.around
  simp only [Extent.top] at hxtop hlo hhi
  simp only [List.mem_append, List.mem_cons] at hy
  obtain hy | rfl | hy := hy
  · have := hlo y hy
    omega
  · omega
  · have := hhi y hy
    omega

/-- `consume` keeps the invariant, and it returns where something is taken. -/
theorem consume_spec (h : p.Sound) {f : Found} {skip : Bool} (hit : Hit p f)
    (hskip : skip = true ↔ ¬p.IsReserved f.curFreeList f.freeEntry) (hn : n ≤ f.freeEntry.size) :
    (0 < n → ∃ p', p.consume f skip n = some p') ∧
      ∀ p', p.consume f skip n = some p' → p'.Sound ∧
        p'.currentThreadFreeList = p.currentThreadFreeList ∧
        p'.minimumFreeEntrySize = p.minimumFreeEntrySize ∧
        ∃ before r, Taken p p' f.curFreeList before f.freeEntry n r f.entryNext ∧
          ∀ x ∈ r, p.minimumFreeEntrySize ≤ x.size := by
  obtain ⟨before, hlist, hprev⟩ := hit.place
  have hlt := hit.cur_lt
  have hsize := h.freeSize_eq _ hlt
  have hcount := h.freeCount_eq _ hlt
  have hhints := h.hints _ hlt
  rw [hlist, totalSize_append, totalSize_cons] at hsize
  rw [hlist, List.length_append, List.length_cons] at hcount
  have hset := (p.heapFreeLists f.curFreeList).setNext_last (h.ordered _ hlt) hlist
  rw [← hprev] at hset
  unfold consume
  dsimp only
  rw [if_neg (by omega)]
  generalize hr : freeEntryIn p.minimumFreeEntrySize (f.freeEntry.base + n)
    (f.freeEntry.base + n + (f.freeEntry.size - n)) = r
  have hmin : ∀ x ∈ r, p.minimumFreeEntrySize ≤ x.size :=
    fun x hx => (Pool.freeEntryIn_eq_some (hr.trans hx)).2.2.2
  have htotal : totalSize r.toList = if r.isSome then f.freeEntry.size - n else 0 := by
    rw [← hr, Pool.totalSize_freeEntryIn]
    simp only [Nat.add_sub_cancel_left]
  rw [hset]
  have htaken : ∀ {q : SplitPool} {l : FreeList}, ReservedUpdated p q →
      l.freeList = before ++ (r.toList ++ f.entryNext) →
      Taken p (q.setList f.curFreeList l) f.curFreeList before f.freeEntry n r f.entryNext :=
    fun hq hnew => taken_setList hlt hlist hq hnew hn hr
  obtain ⟨q, hq, hupd, -⟩ := updateReserved_spec h
    (htaken (q := p) (l := ⟨_, 0, 0, 0, HintCache.initHints⟩) ⟨rfl, rfl, rfl, rfl⟩ rfl)
    hprev hskip
  have hkept : ∀ {p' : SplitPool}, Taken p p' f.curFreeList before f.freeEntry n r f.entryNext →
      SameReserved q p' → ReservedKept p p' f.curFreeList before f.freeEntry r f.entryNext := by
    intro p' ht hs
    obtain ⟨q', hq', -, hk⟩ := updateReserved_spec h ht hprev hskip
    obtain rfl := Option.some.inj (hq.symm.trans hq')
    exact hk hs
  simp only [hq]
  cases r with
  | some x =>
    -- what is left of the entry is linked in its place
    simp only [Option.isSome_some, if_true, Option.toList_some, totalSize_cons,
      totalSize_nil] at htotal
    dsimp only [FreeList.updateHint]
    rw [if_neg (hhints.countP_le _)]
    refine ⟨fun hpos => ?_, fun p' hp' => ?_⟩
    · obtain ⟨hbase, -⟩ := Pool.freeEntryIn_eq_some hr
      have hsome := HintCache.updateHint_isSome (c := (p.heapFreeLists f.curFreeList).hints)
        (show f.freeEntry.base ≠ x.base by omega)
      obtain ⟨c, hc⟩ := Option.isSome_iff_exists.1 hsome
      rw [hc]
      exact ⟨_, rfl⟩
    · cases hc : (p.heapFreeLists f.curFreeList).hints.updateHint f.freeEntry.base x.base with
      | none =>
        rw [hc] at hp'
        cases hp'
      | some c =>
        rw [hc] at hp'
        cases hp'
        have hupd' : ReservedUpdated p { q with
            allocCount := q.allocCount + 1
            allocBytes := q.allocBytes + n } := ⟨hupd.lists, hupd.minimum, hupd.count, hupd.thread⟩
        have ht := htaken hupd' (l := ⟨before ++ ((some x).toList ++ f.entryNext),
          (p.heapFreeLists f.curFreeList).freeSize - n, (p.heapFreeLists f.curFreeList).freeCount,
          (p.heapFreeLists f.curFreeList).timesLocked, c⟩) rfl
        have hk := hkept ht ⟨rfl, rfl, rfl, rfl⟩
        refine ⟨ht.sound_setList hupd' hk h ?_ ?_ ?_ ?_, hupd.thread, hupd.minimum, before, some x,
          ht, hmin⟩
        · show (p.heapFreeLists f.curFreeList).freeSize - n = _
          simp only [Option.toList_some, totalSize_append, totalSize_cons, totalSize_nil]
          omega
        · show (p.heapFreeLists f.curFreeList).freeCount = _
          simp only [Option.toList_some, List.length_append, List.length_cons, List.length_nil]
          omega
        · exact HintCache.updateHint_all hhints.all hc (fun s hs => hs.recycle ht hk h rfl)
            fun a s ha hs => hs.shrink ht hk h ha
        · have hnot : x.base ∉ (p.heapFreeLists f.curFreeList).hints.addresses := by
            by_cases hpos : 0 < n
            · exact ht.not_mem_addresses h hpos rfl
            · have hsame : f.freeEntry.base = x.base := by
                obtain ⟨hbase, -⟩ := Pool.freeEntryIn_eq_some hr
                omega
              rw [hsame] at hc
              exact HintCache.not_mem_of_updateHint_self hc
          exact HintCache.updateHint_nodup hhints.nodup hnot hc
  | none =>
    rw [if_neg (by omega)]
    refine ⟨fun _ => ⟨_, rfl⟩, fun p' hp' => ?_⟩
    cases hp'
    have hupd' : ReservedUpdated p { q with
        allocCount := q.allocCount + 1
        allocBytes := q.allocBytes + n
        allocDiscardedBytes := q.allocDiscardedBytes + (f.freeEntry.size - n) } :=
      ⟨hupd.lists, hupd.minimum, hupd.count, hupd.thread⟩
    have ht := htaken hupd' (l := ⟨before ++ ((none : Option Extent).toList ++ f.entryNext),
      (p.heapFreeLists f.curFreeList).freeSize - n - (f.freeEntry.size - n),
      (p.heapFreeLists f.curFreeList).freeCount - 1,
      (p.heapFreeLists f.curFreeList).timesLocked,
      (p.heapFreeLists f.curFreeList).hints.removeHint f.freeEntry.base⟩) rfl
    have hk := hkept ht ⟨rfl, rfl, rfl, rfl⟩
    refine ⟨ht.sound_setList hupd' hk h ?_ ?_ ?_ ?_, hupd.thread, hupd.minimum, before, none,
      ht, hmin⟩
    · show (p.heapFreeLists f.curFreeList).freeSize - n - (f.freeEntry.size - n) = _
      simp only [Option.toList_none, List.nil_append, totalSize_append]
      omega
    · show (p.heapFreeLists f.curFreeList).freeCount - 1 = _
      simp only [Option.toList_none, List.nil_append, List.length_append]
      omega
    · exact (HintCache.removeHint_all hhints.all).mono fun a s hs => hs.1.shrink ht hk h hs.2
    · exact HintCache.removeHint_nodup hhints.nodup

/-- The addresses of all free entries. -/
def freeBytes (p : SplitPool) : Set ℕ := {a | ∃ i < p.heapFreeListCount, a ∈ bytesOf (p.entries i)}

/-- No entry is below the minimum size. -/
def EntriesLarge (p : SplitPool) : Prop :=
  ∀ i < p.heapFreeListCount, ∀ e ∈ p.entries i, p.minimumFreeEntrySize ≤ e.size

/-- What an allocation does to the free memory: the bytes handed out were free and are not any
more, and nothing else becomes free. -/
structure HandsOut (p p' : SplitPool) (x : Extent) : Prop where
  was_free : x.bytes ⊆ p.freeBytes
  not_free : Disjoint p'.freeBytes x.bytes
  subset : p'.freeBytes ⊆ p.freeBytes
  minimum : p'.minimumFreeEntrySize = p.minimumFreeEntrySize
  large : p.EntriesLarge → p'.EntriesLarge

theorem Taken.handsOut (ht : Taken p p' i xs e n r ys) (h : p.Sound)
    (hmin : p'.minimumFreeEntrySize = p.minimumFreeEntrySize)
    (hr : ∀ x ∈ r, p.minimumFreeEntrySize ≤ x.size) : HandsOut p p' ⟨e.base, n⟩ := by
  obtain ⟨hin, hout⟩ := ht.bytes_disjoint h
  refine ⟨fun a ha => ⟨i, ht.index_lt, hin ha⟩, Set.disjoint_left.2 ?_, ?_, hmin,
    fun hlarge j hj x hx => ?_⟩
  · rintro a ⟨j, hj, ha⟩ hax
    rw [ht.count] at hj
    by_cases hji : j = i
    · exact Set.disjoint_left.1 hout (hji ▸ ha) hax
    · rw [ht.other j hji] at ha
      exact Set.disjoint_left.1 (h.disjoint j hj i ht.index_lt hji) ha (hin hax)
  · rintro a ⟨j, hj, ha⟩
    rw [ht.count] at hj
    exact ⟨j, hj, ht.bytes_subset h j hj ha⟩
  · rw [ht.count] at hj
    rw [hmin]
    by_cases hji : j = i
    · subst hji
      have hold := hlarge j hj
      rw [ht.entries_eq] at hold
      rw [ht.entries_eq'] at hx
      simp only [List.mem_append] at hx
      obtain hx | hx | hx := hx
      · exact hold x (by simp [hx])
      · exact hr x (Option.mem_toList.1 hx)
      · exact hold x (by simp [hx])
    · rw [ht.other j hji] at hx
      exact hlarge j hj x hx

theorem Searched.freeBytes_eq (hs : Searched p p') : p'.freeBytes = p.freeBytes := by
  unfold freeBytes
  simp only [hs.count, hs.freeList]

theorem Searched.entriesLarge_iff (hs : Searched p p') : p'.EntriesLarge ↔ p.EntriesLarge := by
  unfold EntriesLarge
  simp only [hs.count, hs.freeList, hs.minimum]

theorem Searched.handsOut {x : Extent} (hs : Searched p q) (h : HandsOut q p' x) :
    HandsOut p p' x :=
  ⟨hs.freeBytes_eq ▸ h.was_free, h.not_free, hs.freeBytes_eq ▸ h.subset,
    h.minimum.trans hs.minimum, fun hl => h.large (hs.entriesLarge_iff.2 hl)⟩

/-- The start of the threads may be any list. -/
theorem Sound.setCurrentThreadFreeList (h : p.Sound) (environmentId : ℕ)
    (hi : i < p.heapFreeListCount) : (p.setCurrentThreadFreeList environmentId i).Sound := by
  refine ⟨h.count_pos, fun k hk => ?_, h.ordered, h.disjoint, h.freeSize_eq, h.freeCount_eq, ?_,
    fun j hj => ?_⟩
  · show Function.update p.currentThreadFreeList _ i k < p.heapFreeListCount
    by_cases hkey : k = environmentId % p.heapFreeListCount
    · rw [hkey, Function.update_self]
      exact hi
    · rw [Function.update_of_ne hkey]
      exact h.thread_lt k hk
  · obtain hreset | ⟨k, x, us, vs, hn⟩ := h.reserved
    · exact Or.inl ⟨hreset.avaliable, hreset.index, hreset.previous, hreset.size⟩
    · exact Or.inr ⟨k, x, us, vs, hn.avaliable, hn.index, hn.index_lt, hn.entries_eq, hn.previous,
        hn.size⟩
  · have hres : ∀ x, (p.setCurrentThreadFreeList environmentId i).IsReserved j x ↔
        p.IsReserved j x := by
      intro x
      constructor
      · rintro ⟨us, vs, hn⟩
        exact ⟨us, vs, hn.avaliable, hn.index, hn.index_lt, hn.entries_eq, hn.previous, hn.size⟩
      · rintro ⟨us, vs, hn⟩
        exact ⟨us, vs, hn.avaliable, hn.index, hn.index_lt, hn.entries_eq, hn.previous, hn.size⟩
    refine ⟨(h.hints j hj).all.mono fun a s hs => ?_, (h.hints j hj).nodup⟩
    unfold HintSound at hs ⊢
    simp only [hres]
    exact hs

/-- `internalAllocate` with an entry found: it hands out the first bytes of that entry. -/
theorem allocateFound_spec (h : p.Sound) {f : Found} {skip : Bool} (hit : Hit p f)
    (hskip : skip = true ↔ ¬p.IsReserved f.curFreeList f.freeEntry) {size : ℕ}
    (hn : size ≤ f.freeEntry.size) (environmentId : ℕ) :
    (0 < size → ∃ result, p.allocateFound f skip environmentId size = some result) ∧
      ∀ p' r, p.allocateFound f skip environmentId size = some (p', r) →
        p'.Sound ∧ ∃ x, r = some x ∧ x.size = size ∧ HandsOut p p' x := by
  obtain ⟨htotal, hspec⟩ := consume_spec h hit hskip hn
  unfold allocateFound
  refine ⟨fun hpos => ?_, fun p' r hr => ?_⟩
  · obtain ⟨p₁, h₁⟩ := htotal hpos
    rw [h₁]
    exact ⟨_, rfl⟩
  · obtain ⟨p₁, h₁, heq⟩ := Option.map_eq_some_iff.1 hr
    obtain ⟨hs₁, hthread, hmin, before, rest, ht, hrest⟩ := hspec p₁ h₁
    have hout := ht.handsOut h hmin hrest
    obtain ⟨rfl, rfl⟩ := Prod.mk.inj heq
    split
    · have hlt : f.suggestedFreeList < p₁.heapFreeListCount := ht.count ▸ hit.suggested_lt
      exact ⟨hs₁.setCurrentThreadFreeList environmentId hlt, _, rfl, rfl, hout.was_free,
        hout.not_free, hout.subset, hout.minimum, hout.large⟩
    · exact ⟨hs₁, _, rfl, rfl, hout⟩

/-- The largest entry is only reported. -/
theorem searched_setLargestFreeEntry (p : SplitPool) (n : ℕ) :
    Searched p { p with largestFreeEntry := n } :=
  ⟨fun _ => rfl, fun _ => rfl, fun _ => rfl, rfl, rfl, rfl, rfl, rfl, rfl, rfl⟩

theorem Sound.setLargestFreeEntry (h : p.Sound) (n : ℕ) :
    ({ p with largestFreeEntry := n } : SplitPool).Sound := by
  have hs := searched_setLargestFreeEntry p n
  refine hs.sound h fun i hi => ⟨(h.hints i hi).all.mono fun a s ha => ?_, (h.hints i hi).nodup⟩
  exact (hs.hintSound_iff i a s).2 ha

/-- What a call of an allocation leaves: a sound pool, and bytes handed out of the free memory,
or the same free memory if there is no entry as large as `size`. -/
structure Allocated (p : SplitPool) (size : ℕ) (result : SplitPool × Option Extent) : Prop where
  sound : result.1.Sound
  handsOut : ∀ x, result.2 = some x → HandsOut p result.1 x
  failed : result.2 = none → Searched p result.1 ∧
    ∀ i < p.heapFreeListCount, ∀ e ∈ p.entries i, e.size < size

/-- If neither pass finds an entry there is none. -/
theorem TooSmall.lt_of_reserved {size : ℕ}
    (hsmall : ∀ i < p.heapFreeListCount, TooSmall size p i)
    (hres : p.IsReset ∨ p.reservedFreeEntrySize < size) :
    ∀ i < p.heapFreeListCount, ∀ e ∈ p.entries i, e.size < size := by
  intro i hi e he
  obtain ⟨us, vs, hn⟩ | hlt := hsmall i hi e he
  · obtain hreset | hlt := hres
    · exact absurd ⟨us, vs, hn⟩ (hreset.not_isReserved i e)
    · exact hn.size ▸ hlt
  · exact hlt

/-- `internalAllocate` keeps the invariant, returns for every size but zero, and returns `NULL`
only if no entry is large enough. -/
theorem internalAllocate_spec (h : p.Sound) (environmentId size : ℕ) (locking : Bool) :
    (0 < size → ∃ result, p.internalAllocate environmentId size locking = some result) ∧
      ∀ result, p.internalAllocate environmentId size locking = some result →
        Allocated p size result ∧ ∀ x, result.2 = some x → x.size = size := by
  have hstart := h.thread_lt _ (Nat.mod_lt environmentId h.count_pos)
  obtain ⟨p₁, largest, r, hsearch, hs₁, h₁, hfound, hnone⟩ :=
    searchLists_spec (visitList_ok size locking) TooSmall.searched h hstart 0
  have hgives : ∀ {p₂ : SplitPool} {f : Found} {skip : Bool}, Searched p p₂ → p₂.Sound →
      Hit p₂ f → (skip = true ↔ ¬p₂.IsReserved f.curFreeList f.freeEntry) →
      size ≤ f.freeEntry.size →
      (0 < size → ∃ result, p₂.allocateFound f skip environmentId size = some result) ∧
        ∀ result, p₂.allocateFound f skip environmentId size = some result →
          Allocated p size result ∧ ∀ x, result.2 = some x → x.size = size := by
    intro p₂ f skip hs₂ h₂ hit hskip hle
    obtain ⟨htotal, hspec⟩ := allocateFound_spec h₂ hit hskip hle environmentId
    refine ⟨htotal, fun result hres => ?_⟩
    obtain ⟨p₃, r₃⟩ := result
    obtain ⟨h₃, x, rfl, hsize, hout⟩ := hspec p₃ r₃ hres
    refine ⟨⟨h₃, fun y hy => ?_, fun hn => nomatch hn⟩, fun y hy => ?_⟩
    · cases hy
      exact hs₂.handsOut hout
    · cases hy
      exact hsize
  unfold internalAllocate
  dsimp only
  rw [hsearch]
  cases r with
  | some f =>
    obtain ⟨hit, hle, hfree⟩ := hfound f rfl
    exact hgives hs₁ h₁ hit (by simp [hfree]) hle
  | none =>
    have hsmall : ∀ i < p₁.heapFreeListCount, TooSmall size p₁ i :=
      fun i hi => hnone rfl i (hs₁.count ▸ hi)
    have hfail : ∀ {p₂ : SplitPool}, Searched p p₂ → p₂.Sound →
        (p₁.IsReset ∨ p₁.reservedFreeEntrySize < size) →
        Allocated p size ({ p₂ with largestFreeEntry := largest }, none) := by
      intro p₂ hs₂ h₂ hres
      refine ⟨h₂.setLargestFreeEntry largest, fun x hx => (nomatch hx), fun _ => ⟨?_, ?_⟩⟩
      · exact hs₂.trans (searched_setLargestFreeEntry p₂ largest)
      · have hlt := TooSmall.lt_of_reserved hsmall hres
        simpa only [hs₁.count, hs₁.freeList] using hlt
    dsimp only
    split
    · rename_i hle
      obtain ⟨p₂, r₂, hreserved, hs₂, h₂, hfound₂, hnone₂⟩ := searchReserved_spec h₁ locking true
      rw [hreserved]
      cases r₂ with
      | some f =>
        obtain ⟨hit, hres⟩ := hfound₂ f rfl
        refine hgives (hs₁.trans hs₂) h₂ hit (by simp [hres]) ?_
        obtain ⟨us, vs, hn⟩ := hres
        rw [← hn.size, hs₂.size]
        exact hle
      | none =>
        refine ⟨fun _ => ⟨_, rfl⟩, fun result hres => ?_⟩
        cases hres
        exact ⟨hfail (hs₁.trans hs₂) h₂ (Or.inl (hnone₂ rfl)), fun x hx => nomatch hx⟩
    · rename_i hlt
      refine ⟨fun _ => ⟨_, rfl⟩, fun result hres => ?_⟩
      cases hres
      exact ⟨hfail hs₁ h₁ (Or.inr (not_le.1 hlt)), fun x hx => nomatch hx⟩

/-- `internalAllocateTLH` with an entry found. -/
theorem allocateFoundTLH_spec (h : p.Sound) {f : Found} {skip : Bool} (hit : Hit p f)
    (hskip : skip = true ↔ ¬p.IsReserved f.curFreeList f.freeEntry) (environmentId size : ℕ) :
    (0 < size → p.EntriesLarge →
        ∃ result, p.allocateFoundTLH f skip environmentId size = some result) ∧
      ∀ p' r, p.allocateFoundTLH f skip environmentId size = some (p', r) →
        p'.Sound ∧ ∃ x, r = some x ∧ HandsOut p p' x := by
  obtain ⟨before, hlist, -⟩ := hit.place
  have hmem : f.freeEntry ∈ p.entries f.curFreeList := by simp [hlist]
  have hpos := (h.ordered _ hit.cur_lt).size_pos _ hmem
  have h₀ := h.setCurrentThreadFreeList environmentId hit.cur_lt
  have hres : (p.setCurrentThreadFreeList environmentId f.curFreeList).IsReserved f.curFreeList
      f.freeEntry ↔ p.IsReserved f.curFreeList f.freeEntry := by
    constructor
    · rintro ⟨us, vs, hn⟩
      exact ⟨us, vs, hn.avaliable, hn.index, hn.index_lt, hn.entries_eq, hn.previous, hn.size⟩
    · rintro ⟨us, vs, hn⟩
      exact ⟨us, vs, hn.avaliable, hn.index, hn.index_lt, hn.entries_eq, hn.previous, hn.size⟩
  have hit₀ : Hit (p.setCurrentThreadFreeList environmentId f.curFreeList) f :=
    ⟨hit.cur_lt, hit.suggested_lt, hit.place⟩
  unfold allocateFoundTLH
  dsimp only
  generalize hc : (if size > f.freeEntry.size then f.freeEntry.size else size) = c
  have hcle : c ≤ f.freeEntry.size ∧ (0 < size → 0 < c) := by
    rw [← hc]
    split <;> omega
  generalize hd : (if f.freeEntry.size - c <
      (p.setCurrentThreadFreeList environmentId f.curFreeList).minimumFreeEntrySize then
        f.freeEntry.size else c) = d
  have hdle : d ≤ f.freeEntry.size ∧ (0 < size → 0 < d) := by
    rw [← hd]
    split <;> omega
  obtain ⟨htotal, hspec⟩ := consume_spec h₀ hit₀ (by rw [hres]; exact hskip) hdle.1
  split
  · rename_i hsmall
    exact ⟨fun _ hlarge => absurd (hlarge _ hit.cur_lt _ hmem) (not_le.2 hsmall),
      fun p' r hr => nomatch hr⟩
  · refine ⟨fun hsize _ => ?_, fun p' r hr => ?_⟩
    · obtain ⟨p₁, h₁⟩ := htotal (hdle.2 hsize)
      rw [h₁]
      exact ⟨_, rfl⟩
    · obtain ⟨p₁, h₁, heq⟩ := Option.map_eq_some_iff.1 hr
      obtain ⟨hs₁, -, hmin, before, rest, ht, hrest⟩ := hspec p₁ h₁
      have hout := ht.handsOut h₀ hmin hrest
      obtain ⟨rfl, rfl⟩ := Prod.mk.inj heq
      exact ⟨hs₁, _, rfl, hout.was_free, hout.not_free, hout.subset, hout.minimum, hout.large⟩

/-- `internalAllocateTLH` keeps the invariant, and returns `NULL` only if the lists are empty. -/
theorem internalAllocateTLH_spec (h : p.Sound) (environmentId size : ℕ) (locking : Bool) :
    (0 < size → p.EntriesLarge →
        ∃ result, p.internalAllocateTLH environmentId size locking = some result) ∧
      ∀ result, p.internalAllocateTLH environmentId size locking = some result →
        Allocated p 1 result := by
  have hstart := h.thread_lt _ (Nat.mod_lt environmentId h.count_pos)
  obtain ⟨p₁, largest, r, hsearch, hs₁, h₁, hfound, hnone⟩ :=
    searchLists_spec (visitListTLH_ok locking)
      (fun hs hall e he => (hs.isReserved_iff _ e).2 (hall e (hs.freeList _ ▸ he))) h hstart 0
  have hgives : ∀ {p₂ : SplitPool} {f : Found} {skip : Bool}, Searched p p₂ → p₂.Sound →
      Hit p₂ f → (skip = true ↔ ¬p₂.IsReserved f.curFreeList f.freeEntry) →
      (0 < size → p.EntriesLarge →
          ∃ result, p₂.allocateFoundTLH f skip environmentId size = some result) ∧
        ∀ result, p₂.allocateFoundTLH f skip environmentId size = some result →
          Allocated p 1 result := by
    intro p₂ f skip hs₂ h₂ hit hskip
    obtain ⟨htotal, hspec⟩ := allocateFoundTLH_spec h₂ hit hskip environmentId size
    refine ⟨fun hsize hlarge => htotal hsize (hs₂.entriesLarge_iff.2 hlarge), fun result hres => ?_⟩
    obtain ⟨p₃, r₃⟩ := result
    obtain ⟨h₃, x, rfl, hout⟩ := hspec p₃ r₃ hres
    refine ⟨h₃, fun y hy => ?_, fun hn => nomatch hn⟩
    cases hy
    exact hs₂.handsOut hout
  unfold internalAllocateTLH
  dsimp only
  rw [hsearch]
  cases r with
  | some f =>
    obtain ⟨hit, hfree⟩ := hfound f rfl
    exact hgives hs₁ h₁ hit (by simp [hfree])
  | none =>
    have hfail : ∀ {p₂ : SplitPool}, Searched p p₂ → p₂.Sound →
        (p₁.IsReset ∨ p₁.reservedFreeEntrySize < 1) →
        Allocated p 1 ({ p₂ with largestFreeEntry := 0 }, none) := by
      intro p₂ hs₂ h₂ hres
      refine ⟨h₂.setLargestFreeEntry 0, fun x hx => (nomatch hx), fun _ => ⟨?_, ?_⟩⟩
      · exact hs₂.trans (searched_setLargestFreeEntry p₂ 0)
      · have hlt := @TooSmall.lt_of_reserved p₁ 1
          (fun i hi e he => Or.inl (hnone rfl i (hs₁.count ▸ hi) e he)) hres
        simpa only [hs₁.count, hs₁.freeList] using hlt
    dsimp only
    split
    · obtain ⟨p₂, r₂, hreserved, hs₂, h₂, hfound₂, hnone₂⟩ := searchReserved_spec h₁ locking false
      rw [hreserved]
      cases r₂ with
      | some f =>
        obtain ⟨hit, hres⟩ := hfound₂ f rfl
        exact hgives (hs₁.trans hs₂) h₂ hit (by simp [hres])
      | none =>
        refine ⟨fun _ _ => ⟨_, rfl⟩, fun result hres => ?_⟩
        cases hres
        exact hfail (hs₁.trans hs₂) h₂ (Or.inl (hnone₂ rfl))
    · rename_i hzero
      refine ⟨fun _ _ => ⟨_, rfl⟩, fun result hres => ?_⟩
      cases hres
      exact hfail hs₁ h₁ (Or.inr (by omega))

end OMR.GC.SplitPool
