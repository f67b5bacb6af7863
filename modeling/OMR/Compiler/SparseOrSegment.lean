import OMR.Compiler.SparseIndexSearch

/-!
# Merging two segments

`OrSegment` appends chunks of the two sorted arrays in turn. It fails to write only when the union
has more values than the new array holds.
-/

namespace OMR.Compiler.SparseBitVector

/-- A segment with sorted 16-bit values, which its array holds. -/
structure Segment.WellFormed (s : Segment) : Prop where
  sorted : s.values.Pairwise (· < ·)
  ne_nil : s.values ≠ []
  values_lt : ∀ x ∈ s.values, x < 2 ^ 16
  length_le : s.values.length ≤ s.fSize
  fSize_le : s.fSize ≤ kSegmentMask

theorem Segment.append_of_le (t s : Segment) {fromIndex toIndex : ℕ} (hle : fromIndex ≤ toIndex)
    (hto : toIndex ≤ kSegmentMask) :
    t.append s fromIndex toIndex =
      if t.values.length + (toIndex - fromIndex) ≤ t.fSize then
        some { t with values := t.values ++ (s.values.take toIndex).drop fromIndex }
      else none := by
  unfold kSegmentMask at hto
  have hfromMod : fromIndex % 2 ^ 16 = fromIndex := Nat.mod_eq_of_lt (by omega)
  have htoMod : toIndex % 2 ^ 16 = toIndex := Nat.mod_eq_of_lt (by omega)
  unfold append populationCount
  simp only [hfromMod, htoMod, hle, true_and]

/-- The elements of either segment. -/
def union (thisSegment inputSegment : Segment) : Finset ℕ :=
  thisSegment.values.toFinset ∪ inputSegment.values.toFinset

theorem mem_union {thisSegment inputSegment : Segment} {x : ℕ} :
    x ∈ union thisSegment inputSegment ↔ x ∈ thisSegment.values ∨ x ∈ inputSegment.values := by
  rw [union, Finset.mem_union, List.mem_toFinset, List.mem_toFinset]

/-- A sorted array is at most as long as a set that has all its elements. -/
theorem length_le_card {l : List ℕ} {s : Finset ℕ} (h : l.Pairwise (· < ·))
    (hsub : ∀ x ∈ l, x ∈ s) : l.length ≤ s.card := by
  have hnodup : l.Nodup := h.imp fun hab => hab.ne
  rw [← List.toFinset_card_of_nodup hnodup]
  exact Finset.card_le_card fun x hx => hsub x (List.mem_toFinset.1 hx)

theorem length_eq_card {l : List ℕ} {s : Finset ℕ} (h : l.Pairwise (· < ·))
    (hmem : ∀ x, x ∈ l ↔ x ∈ s) : l.length = s.card := by
  have hnodup : l.Nodup := h.imp fun hab => hab.ne
  rw [← List.toFinset_card_of_nodup hnodup]
  congr 1
  ext x
  rw [List.mem_toFinset, hmem]

section Merge

variable {thisSegment inputSegment tmpSegment : Segment} {allocated i0 i ii : ℕ}

/-- What `OrSegment` has merged: the elements below position `i0` of `thisSegment`, and those below
`ii` of `inputSegment`. -/
structure Merging (thisSegment inputSegment : Segment) (allocated i0 i ii : ℕ)
    (tmpSegment : Segment) : Prop where
  sorted : tmpSegment.values.Pairwise (· < ·)
  mem : ∀ x, (x ∈ tmpSegment.values ∨ x ∈ thisSegment.values.drop i0) ↔
    (x ∈ thisSegment.values ∨ x ∈ inputSegment.values.take ii)
  lt_this : ∀ x ∈ tmpSegment.values, ∀ y ∈ thisSegment.values.drop i0, x < y
  lt_input : ∀ x ∈ tmpSegment.values, ∀ y ∈ inputSegment.values.drop ii, x < y
  fresh : tmpSegment.values = [] → tmpSegment.fSize = 0 ∧ i0 = 0
  started : tmpSegment.values ≠ [] → tmpSegment.fSize = allocated ∧
    tmpSegment.fHighBits = thisSegment.fHighBits ∧ ∃ x ∈ inputSegment.values, x ∉ thisSegment.values
  fits : tmpSegment.values.length ≤ tmpSegment.fSize
  i0_le : i0 ≤ i
  i_lt : ii < inputSegment.values.length → i < thisSegment.values.length
  i_le : i ≤ thisSegment.values.length
  ii_le : ii ≤ inputSegment.values.length
  below : ∀ j < i, ∀ y ∈ inputSegment.values.drop ii, thisSegment.values.getD j 0 < y

theorem getD_mem_drop {l : List ℕ} {k : ℕ} (hk : k < l.length) : l.getD k 0 ∈ l.drop k := by
  rw [List.drop_eq_getElem_cons hk, List.getD_eq_getElem _ _ hk]
  exact List.mem_cons_self ..

theorem merging_empty (hthis : thisSegment.values ≠ []) :
    Merging thisSegment inputSegment allocated 0 0 0 ⟨0, 0, []⟩ where
  sorted := List.Pairwise.nil
  mem := fun x => by simp
  lt_this := fun x hx => absurd hx List.not_mem_nil
  lt_input := fun x hx => absurd hx List.not_mem_nil
  fresh := fun _ => ⟨rfl, rfl⟩
  started := fun hne => absurd rfl hne
  fits := le_rfl
  i0_le := le_rfl
  i_lt := fun _ => List.length_pos_iff.2 hthis
  i_le := Nat.zero_le _
  ii_le := Nat.zero_le _
  below := fun j hj => absurd hj (Nat.not_lt_zero j)

/-- Everything below `ii` is below everything from `ii` on. -/
theorem take_lt_drop {l : List ℕ} (h : l.Pairwise (· < ·)) (k : ℕ) :
    ∀ x ∈ l.take k, ∀ y ∈ l.drop k, x < y := by
  rw [← List.take_append_drop k l, List.pairwise_append] at h
  exact h.2.2

/-- The bounds for the position of the next input element. -/
theorem Merging.isIndex (h : Merging thisSegment inputSegment allocated i0 i ii tmpSegment)
    (hthis : thisSegment.WellFormed) (hii : ii < inputSegment.values.length) :
    IsIndex thisSegment.values (inputSegment.values.getD ii 0)
      (advanceIndex thisSegment.values (inputSegment.values.getD ii 0) i 0) :=
  advanceIndex_spec hthis.sorted (h.i_lt hii) fun j hj => h.below j hj _ (getD_mem_drop hii)

theorem take_succ_mem {l : List ℕ} {k : ℕ} (hk : k < l.length) (x : ℕ) :
    x ∈ l.take (k + 1) ↔ x ∈ l.take k ∨ x = l.getD k 0 := by
  rw [List.take_add_one, List.getElem?_eq_getElem hk, List.getD_eq_getElem _ _ hk, List.mem_append]
  simp

/-- A common element is left to `thisSegment`. -/
theorem Merging.common (h : Merging thisSegment inputSegment allocated i0 i ii tmpSegment)
    (hthis : thisSegment.WellFormed) (hinput : inputSegment.WellFormed)
    (hii : ii < inputSegment.values.length) {t : ℕ} (hit : i ≤ t)
    (ht : IsIndex thisSegment.values (inputSegment.values.getD ii 0) t)
    (hcommon : t < thisSegment.values.length ∧
      thisSegment.values.getD t 0 = inputSegment.values.getD ii 0) :
    Merging thisSegment inputSegment allocated i0 t (ii + 1) tmpSegment := by
  have hmem : inputSegment.values.getD ii 0 ∈ thisSegment.values :=
    (ht.mem_iff hthis.sorted).2 hcommon
  have hdrop : ∀ y ∈ inputSegment.values.drop (ii + 1), y ∈ inputSegment.values.drop ii :=
    fun y hy => by
      rw [List.drop_eq_getElem_cons hii]
      exact List.mem_cons_of_mem _ hy
  have hgt : ∀ y ∈ inputSegment.values.drop (ii + 1), inputSegment.values.getD ii 0 < y := by
    intro y hy
    refine take_lt_drop hinput.sorted (ii + 1) _ ?_ y hy
    exact (take_succ_mem hii _).2 (.inr rfl)
  exact
    { h with
      mem := by
        intro x
        rw [h.mem, take_succ_mem hii]
        constructor
        · rintro (hx | hx)
          · exact .inl hx
          · exact .inr (.inl hx)
        · rintro (hx | hx | rfl)
          · exact .inl hx
          · exact .inr hx
          · exact .inl hmem
      lt_input := fun x hx y hy => h.lt_input x hx y (hdrop y hy)
      i0_le := h.i0_le.trans hit
      i_lt := fun _ => hcommon.1
      i_le := hcommon.1.le
      ii_le := hii
      below := fun j hj y hy => (ht.below j hj).trans (hgt y hy) }

/-- The two chunks that a round appends: what `thisSegment` has below the next input element, and
the input elements below the next one of `thisSegment`. -/
theorem Merging.chunks (h : Merging thisSegment inputSegment allocated i0 i ii tmpSegment)
    (hthis : thisSegment.WellFormed) (hinput : inputSegment.WellFormed)
    (hii : ii < inputSegment.values.length) {t ii' : ℕ} (hit : i ≤ t)
    (ht : IsIndex thisSegment.values (inputSegment.values.getD ii 0) t)
    (hnew : inputSegment.values.getD ii 0 ∉ thisSegment.values)
    (hlt : ii < ii') (hle : ii' ≤ inputSegment.values.length)
    (hbound : ∀ x ∈ inputSegment.values.take ii', ∀ y ∈ thisSegment.values.drop t, x < y)
    (hend : ii' < inputSegment.values.length → t < thisSegment.values.length)
    (hbelow : ∀ j < t, ∀ y ∈ inputSegment.values.drop ii', thisSegment.values.getD j 0 < y) :
    let values := tmpSegment.values ++ (thisSegment.values.take t).drop i0 ++
      (inputSegment.values.take ii').drop ii
    (∀ x ∈ values, x ∈ union thisSegment inputSegment) ∧ values.Pairwise (· < ·) ∧
      (values.length ≤ allocated →
        Merging thisSegment inputSegment allocated t t ii'
          ⟨allocated, thisSegment.fHighBits, values⟩) := by
  have hi0 : i0 ≤ t := h.i0_le.trans hit
  have hthisSplit : thisSegment.values.drop i0 =
      (thisSegment.values.take t).drop i0 ++ thisSegment.values.drop t := by
    conv_lhs => rw [← List.take_append_drop t thisSegment.values]
    rw [List.drop_append_of_le_length]
    rw [List.length_take]
    exact le_min hi0 (hi0.trans ht.le_length)
  have hinputSplit : inputSegment.values.drop ii =
      (inputSegment.values.take ii').drop ii ++ inputSegment.values.drop ii' := by
    conv_lhs => rw [← List.take_append_drop ii' inputSegment.values]
    rw [List.drop_append_of_le_length]
    rw [List.length_take]
    exact le_min hlt.le hii.le
  have htakeSplit : inputSegment.values.take ii' =
      inputSegment.values.take ii ++ (inputSegment.values.take ii').drop ii := by
    conv_lhs => rw [← List.take_append_drop ii (inputSegment.values.take ii')]
    rw [List.take_take, Nat.min_eq_left hlt.le]
  have hfirst : ∀ y ∈ inputSegment.values.drop ii, inputSegment.values.getD ii 0 ≤ y := by
    intro y hy
    obtain ⟨k, hk, rfl⟩ := List.getElem_of_mem hy
    rw [List.length_drop] at hk
    rw [List.getElem_drop, ← List.getD_eq_getElem _ 0]
    exact getD_le_getD hinput.sorted (by omega) (by omega)
  have hA : ∀ x ∈ (thisSegment.values.take t).drop i0, x < inputSegment.values.getD ii 0 :=
    fun x hx => ht.take_lt x (List.mem_of_mem_drop hx)
  have hsubA : ∀ x ∈ (thisSegment.values.take t).drop i0, x ∈ thisSegment.values.drop i0 :=
    fun x hx => by rw [hthisSplit]; exact List.mem_append_left _ hx
  have hsubB : ∀ x ∈ (inputSegment.values.take ii').drop ii, x ∈ inputSegment.values.drop ii :=
    fun x hx => by rw [hinputSplit]; exact List.mem_append_left _ hx
  have hsorted : (tmpSegment.values ++ (thisSegment.values.take t).drop i0 ++
      (inputSegment.values.take ii').drop ii).Pairwise (· < ·) := by
    refine List.pairwise_append.2 ⟨List.pairwise_append.2 ⟨h.sorted, ?_, ?_⟩, ?_, ?_⟩
    · exact hthis.sorted.sublist ((List.drop_sublist ..).trans (List.take_sublist ..))
    · exact fun x hx y hy => h.lt_this x hx y (hsubA y hy)
    · exact hinput.sorted.sublist ((List.drop_sublist ..).trans (List.take_sublist ..))
    · intro x hx y hy
      rcases List.mem_append.1 hx with hx | hx
      · exact h.lt_input x hx y (hsubB y hy)
      · exact (hA x hx).trans_le (hfirst y (hsubB y hy))
  have hmem : ∀ x, x ∈ tmpSegment.values ++ (thisSegment.values.take t).drop i0 ++
      (inputSegment.values.take ii').drop ii ∨ x ∈ thisSegment.values.drop t ↔
        x ∈ thisSegment.values ∨ x ∈ inputSegment.values.take ii' := by
    intro x
    have hold := h.mem x
    have htake : x ∈ inputSegment.values.take ii' ↔ x ∈ inputSegment.values.take ii ∨
        x ∈ (inputSegment.values.take ii').drop ii := by
      conv_lhs => rw [htakeSplit]
      exact List.mem_append
    rw [hthisSplit, List.mem_append] at hold
    rw [htake, ← or_assoc, ← hold, List.mem_append, List.mem_append, or_right_comm]
    exact or_congr_left or_assoc
  have hnewMem : inputSegment.values.getD ii 0 ∈ (inputSegment.values.take ii').drop ii := by
    have hk : ii < (inputSegment.values.take ii').length := by
      rw [List.length_take]
      exact lt_min hlt hii
    have hget := getD_mem_drop hk
    rwa [List.getD_eq_getElem _ _ hk, List.getElem_take, ← List.getD_eq_getElem _ 0 hii] at hget
  dsimp only
  refine ⟨fun x hx => ?_, hsorted, fun hfits => ?_⟩
  · rcases (hmem x).1 (.inl hx) with hx | hx
    · exact mem_union.2 (.inl hx)
    · exact mem_union.2 (.inr (List.mem_of_mem_take hx))
  · exact
      { sorted := hsorted
        mem := hmem
        lt_this := by
          intro x hx y hy
          rcases List.mem_append.1 hx with hx | hx
          · rcases List.mem_append.1 hx with hx | hx
            · refine h.lt_this x hx y ?_
              rw [hthisSplit]
              exact List.mem_append_right _ hy
            · exact take_lt_drop hthis.sorted t x (List.mem_of_mem_drop hx) y hy
          · exact hbound x (List.mem_of_mem_drop hx) y hy
        lt_input := by
          intro x hx y hy
          have hy' : y ∈ inputSegment.values.drop ii := by
            rw [hinputSplit]
            exact List.mem_append_right _ hy
          rcases List.mem_append.1 hx with hx | hx
          · rcases List.mem_append.1 hx with hx | hx
            · exact h.lt_input x hx y hy'
            · exact (hA x hx).trans_le (hfirst y hy')
          · exact take_lt_drop hinput.sorted ii' x (List.mem_of_mem_drop hx) y hy
        fresh := by
          intro hnil
          exact absurd (List.append_eq_nil_iff.1 hnil).2 (List.ne_nil_of_mem hnewMem)
        started := fun _ => ⟨rfl, rfl, _,
          List.mem_of_mem_drop (getD_mem_drop hii), hnew⟩
        fits := hfits
        i0_le := le_rfl
        i_lt := hend
        i_le := ht.le_length
        ii_le := hle
        below := hbelow }

/-- With `thisSegment` at its end the input is appended to its end, too. -/
theorem nextInput (hthis : thisSegment.WellFormed) (hinput : inputSegment.WellFormed)
    (hii : ii < inputSegment.values.length) {t : ℕ}
    (ht : IsIndex thisSegment.values (inputSegment.values.getD ii 0) t)
    (hnew : ¬ (t < thisSegment.values.length ∧
      thisSegment.values.getD t 0 = inputSegment.values.getD ii 0)) :
    let ii' := if t = thisSegment.populationCount then inputSegment.populationCount
      else advanceIndex inputSegment.values (thisSegment.values.getD t 0) ii 0
    ii < ii' ∧ ii' ≤ inputSegment.values.length ∧
      (∀ x ∈ inputSegment.values.take ii', ∀ y ∈ thisSegment.values.drop t, x < y) ∧
      (ii' < inputSegment.values.length → t < thisSegment.values.length) ∧
      ∀ j < t, ∀ y ∈ inputSegment.values.drop ii', thisSegment.values.getD j 0 < y := by
  dsimp only
  have hdrop : ∀ k, ii ≤ k → ∀ y ∈ inputSegment.values.drop k, inputSegment.values.getD ii 0 ≤ y := by
    intro k hk y hy
    obtain ⟨m, hm, rfl⟩ := List.getElem_of_mem hy
    rw [List.length_drop] at hm
    rw [List.getElem_drop, ← List.getD_eq_getElem _ 0]
    exact getD_le_getD hinput.sorted (by omega) (by omega)
  split
  next hend =>
    refine ⟨hii, le_rfl, fun x hx y hy => ?_, fun hlt => absurd hlt (lt_irrefl _),
      fun j hj y hy => (ht.below j hj).trans_le (hdrop _ hii.le y hy)⟩
    rw [hend, Segment.populationCount, List.drop_length] at hy
    exact absurd hy List.not_mem_nil
  next hne =>
    have htlt : t < thisSegment.values.length := lt_of_le_of_ne ht.le_length hne
    have hgt : inputSegment.values.getD ii 0 < thisSegment.values.getD t 0 :=
      lt_of_le_of_ne (ht.above t le_rfl htlt) fun heq => hnew ⟨htlt, heq.symm⟩
    have hbelow : ∀ k < ii, inputSegment.values.getD k 0 < thisSegment.values.getD t 0 :=
      fun k hk => (getD_lt_getD hinput.sorted hk hii).trans hgt
    have hindex := advanceIndex_spec hinput.sorted hii hbelow
    revert hindex
    generalize advanceIndex inputSegment.values (thisSegment.values.getD t 0) ii 0 = ii'
    intro hindex
    have hlt : ii < ii' := hindex.le (below_succ hbelow hgt) hii
    refine ⟨hlt, hindex.le_length, fun x hx y hy => ?_, fun _ => htlt,
      fun j hj y hy => (ht.below j hj).trans_le (hdrop _ hlt.le y hy)⟩
    refine (hindex.take_lt x hx).trans_le ?_
    obtain ⟨m, hm, rfl⟩ := List.getElem_of_mem hy
    rw [List.length_drop] at hm
    rw [List.getElem_drop, ← List.getD_eq_getElem _ 0]
    exact getD_le_getD hthis.sorted (by omega) (by omega)

/-- The new array is allocated once, before the first append. -/
theorem Merging.grown (h : Merging thisSegment inputSegment allocated i0 i ii tmpSegment)
    {toAllocate : ℕ} (halloc : ∀ highBits,
      growSegment ⟨0, highBits, []⟩ thisSegment.fSize toAllocate = ⟨allocated, highBits, []⟩) :
    (if tmpSegment.isZero then
      { growSegment tmpSegment thisSegment.fSize toAllocate with
        fHighBits := thisSegment.fHighBits }
    else tmpSegment) = ⟨allocated, thisSegment.fHighBits, tmpSegment.values⟩ := by
  obtain ⟨size, highBits, values⟩ := tmpSegment
  cases values with
  | nil =>
    obtain rfl : size = 0 := (h.fresh rfl).1
    rw [Segment.isZero, List.isEmpty_nil, if_pos rfl, halloc]
  | cons x values =>
    obtain ⟨hsize, hhigh, -⟩ := h.started (List.cons_ne_nil _ _)
    rw [Segment.isZero, List.isEmpty_cons, if_neg Bool.false_ne_true]
    dsimp only at hsize hhigh
    rw [hsize, hhigh]

/-- The loop ends with everything of the input merged, and it does end when the union fits into
the new array. -/
theorem orSegmentLoop_spec (hthis : thisSegment.WellFormed) (hinput : inputSegment.WellFormed)
    (hthisLe : thisSegment.values.length ≤ kSegmentMask)
    (hinputLe : inputSegment.values.length ≤ kSegmentMask) {toAllocate : ℕ}
    (halloc : ∀ highBits,
      growSegment ⟨0, highBits, []⟩ thisSegment.fSize toAllocate = ⟨allocated, highBits, []⟩)
    (fuel i0 i ii : ℕ) (tmpSegment : Segment)
    (hfuel : inputSegment.values.length ≤ ii + fuel)
    (h : Merging thisSegment inputSegment allocated i0 i ii tmpSegment) :
    (∀ r, orSegmentLoop thisSegment inputSegment toAllocate fuel i0 i ii tmpSegment = some r →
      ∃ i', Merging thisSegment inputSegment allocated r.1 i' inputSegment.values.length r.2) ∧
    ((union thisSegment inputSegment).card ≤ allocated →
      (orSegmentLoop thisSegment inputSegment toAllocate fuel i0 i ii tmpSegment).isSome) := by
  induction fuel generalizing i0 i ii tmpSegment with
  | zero =>
    have hii : ii = inputSegment.values.length := le_antisymm h.ii_le hfuel
    refine ⟨fun r hr => ?_, fun _ => rfl⟩
    obtain rfl := Option.some.inj hr
    exact ⟨i, hii ▸ h⟩
  | succ fuel ih =>
    rw [orSegmentLoop]
    dsimp only
    by_cases hii : ii < inputSegment.populationCount
    · rw [if_pos hii]
      have ht := h.isIndex hthis hii
      have hit := ht.le (fun j hj => h.below j hj _ (getD_mem_drop hii)) h.i_le
      revert ht hit
      generalize advanceIndex thisSegment.values (inputSegment.values.getD ii 0) i 0 = t
      intro ht hit
      by_cases hcommon : t < thisSegment.populationCount ∧
          thisSegment.values.getD t 0 = inputSegment.values.getD ii 0
      · rw [if_pos hcommon]
        exact ih _ _ _ _ (by omega) (h.common hthis hinput hii hit ht hcommon)
      · have hnew := (ht.mem_iff hthis.sorted).not.2 hcommon
        obtain ⟨hlt, hle, hbound, hend, hbelow⟩ := nextInput hthis hinput hii ht hcommon
        have hlen := ht.le_length
        rw [if_neg hcommon, h.grown halloc]
        revert hlt hle hbound hend hbelow
        generalize (if t = thisSegment.populationCount then inputSegment.populationCount
          else advanceIndex inputSegment.values (thisSegment.values.getD t 0) ii 0) = ii'
        intro hlt hle hbound hend hbelow
        obtain ⟨hsub, hsorted, hnext⟩ :=
          h.chunks hthis hinput hii hit ht hnew hlt hle hbound hend hbelow
        have hcard := length_le_card hsorted hsub
        have hlenA : ((thisSegment.values.take t).drop i0).length = t - i0 := by
          rw [List.length_drop, List.length_take, Nat.min_eq_left hlen]
        have hlenB : ((inputSegment.values.take ii').drop ii).length = ii' - ii := by
          rw [List.length_drop, List.length_take, Nat.min_eq_left hle]
        rw [List.length_append, List.length_append, hlenA, hlenB] at hcard hnext
        rw [Segment.append_of_le _ _ (h.i0_le.trans hit) (hlen.trans hthisLe)]
        dsimp only
        by_cases hfitsA : tmpSegment.values.length + (t - i0) ≤ allocated
        · rw [if_pos hfitsA, Option.bind_some, Segment.append_of_le _ _ hlt.le (hle.trans hinputLe)]
          dsimp only
          rw [List.length_append, hlenA]
          by_cases hfitsB : tmpSegment.values.length + (t - i0) + (ii' - ii) ≤ allocated
          · rw [if_pos hfitsB]
            exact ih _ _ _ _ (by omega) (hnext hfitsB)
          · rw [if_neg hfitsB]
            exact ⟨fun r hr => absurd hr (by simp), fun hfits => absurd (hcard.trans hfits) hfitsB⟩
        · rw [if_neg hfitsA]
          exact ⟨fun r hr => absurd hr (by simp), fun hfits => absurd hfits (by omega)⟩
    · rw [if_neg hii]
      have hend : ii = inputSegment.values.length := le_antisymm h.ii_le (not_lt.1 hii)
      refine ⟨fun r hr => ?_, fun _ => rfl⟩
      obtain rfl := Option.some.inj hr
      exact ⟨i, hend ▸ h⟩

/-- The size that `GrowSegment` computes for a number of values. -/
def grownSize (numValues : ℕ) : ℕ :=
  if numValues ≤ 1024 then 2 * floorPowerOfTwo (numValues - 1)
  else min (1024 + 1024 * ((numValues - 1) / 1024)) kSegmentMask

theorem grownSize_le {numValues : ℕ} (h : 2 ≤ numValues) : grownSize numValues ≤ kSegmentMask := by
  unfold grownSize
  split
  next hle =>
    have hpow := Nat.log2_self_le (show numValues - 1 ≠ 0 by omega)
    unfold floorPowerOfTwo kSegmentMask
    omega
  next => exact min_le_right _ _

/-- The values fit as long as there are at most 65535 of them. -/
theorem le_grownSize {numValues n : ℕ} (hn : n ≤ numValues) (hmask : n ≤ kSegmentMask) :
    n ≤ grownSize numValues := by
  unfold grownSize
  split
  next hle =>
    have hpow : numValues - 1 < 2 ^ ((numValues - 1).log2 + 1) := Nat.lt_log2_self
    unfold floorPowerOfTwo
    rw [pow_succ] at hpow
    omega
  next => exact le_min (by omega) hmask

theorem growSegment_fresh (highBits size : ℕ) {numValues : ℕ} (h : 0 < numValues) :
    growSegment ⟨0, highBits, []⟩ size numValues = ⟨grownSize numValues, highBits, []⟩ := by
  unfold growSegment grownSize
  rw [if_pos h, if_neg (Nat.not_lt_zero _), if_pos rfl]
  split
  next hle =>
    have hpow : 2 * floorPowerOfTwo (numValues - 1) ≤ kSegmentMask := by
      unfold floorPowerOfTwo kSegmentMask
      by_cases hzero : numValues - 1 = 0
      · rw [hzero]
        decide
      · have := Nat.log2_self_le hzero
        omega
    rw [if_neg (not_lt.2 hpow)]
  next hgt =>
    split
    next hbig => rw [Nat.min_eq_right (le_of_lt hbig)]
    next hsmall => rw [Nat.min_eq_left (not_lt.1 hsmall)]

/-- What `OrSegment` does when it writes nothing behind an array. -/
def OrResult (thisSegment inputSegment outputSegment : Segment) (isInplace : Bool)
    (r : Segment × Bool) : Prop :=
  if ∀ x ∈ inputSegment.values, x ∈ thisSegment.values then
    r = (if isInplace then outputSegment else copySegment outputSegment thisSegment, false)
  else r.2 = true ∧ r.1.WellFormed ∧ r.1.fHighBits = thisSegment.fHighBits ∧
    ∀ x, x ∈ r.1.values ↔ x ∈ union thisSegment inputSegment

theorem wellFormed_of_union (hthis : thisSegment.WellFormed) (hinput : inputSegment.WellFormed)
    {s : Segment} (hsorted : s.values.Pairwise (· < ·))
    (hmem : ∀ x, x ∈ s.values ↔ x ∈ union thisSegment inputSegment)
    (hfits : s.values.length ≤ s.fSize) (hsize : s.fSize ≤ kSegmentMask) : s.WellFormed where
  sorted := hsorted
  ne_nil := by
    obtain ⟨x, hx⟩ := List.exists_mem_of_ne_nil _ hthis.ne_nil
    exact List.ne_nil_of_mem ((hmem x).2 (mem_union.2 (.inl hx)))
  values_lt := by
    intro x hx
    rcases mem_union.1 ((hmem x).1 hx) with hx | hx
    · exact hthis.values_lt x hx
    · exact hinput.values_lt x hx
  length_le := hfits
  fSize_le := hsize

/-- After the loop the rest of `thisSegment` is appended. -/
theorem Merging.finish (hthis : thisSegment.WellFormed) (hinput : inputSegment.WellFormed)
    (h : Merging thisSegment inputSegment allocated i0 i inputSegment.values.length tmpSegment)
    (hne : tmpSegment.values ≠ []) (hallocated : allocated ≤ kSegmentMask) :
    (∀ s, tmpSegment.append thisSegment i0 thisSegment.values.length = some s →
      s.WellFormed ∧ s.fHighBits = thisSegment.fHighBits ∧
        ∀ x, x ∈ s.values ↔ x ∈ union thisSegment inputSegment) ∧
    ((union thisSegment inputSegment).card ≤ allocated →
      (tmpSegment.append thisSegment i0 thisSegment.values.length).isSome) := by
  obtain ⟨hsize, hhigh, -⟩ := h.started hne
  have hi0 := h.i0_le.trans h.i_le
  have hsorted : (tmpSegment.values ++ thisSegment.values.drop i0).Pairwise (· < ·) :=
    List.pairwise_append.2 ⟨h.sorted, hthis.sorted.sublist (List.drop_sublist ..), h.lt_this⟩
  have hmem : ∀ x, x ∈ tmpSegment.values ++ thisSegment.values.drop i0 ↔
      x ∈ union thisSegment inputSegment := by
    intro x
    rw [List.mem_append, h.mem, List.take_length, mem_union]
  have hcard := length_eq_card hsorted hmem
  rw [List.length_append, List.length_drop] at hcard
  rw [Segment.append_of_le _ _ hi0 (hthis.length_le.trans hthis.fSize_le), List.take_length, hsize]
  by_cases hfits : tmpSegment.values.length + (thisSegment.values.length - i0) ≤ allocated
  · rw [if_pos hfits]
    refine ⟨fun s hs => ?_, fun _ => rfl⟩
    obtain rfl := Option.some.inj hs
    refine ⟨wellFormed_of_union hthis hinput hsorted hmem ?_ hallocated, hhigh, hmem⟩
    rw [List.length_append, List.length_drop]
    exact hfits
  · rw [if_neg hfits]
    exact ⟨fun s hs => absurd hs (by simp), fun hle => absurd (hcard.trans_le hle) hfits⟩

theorem le_lastOne (hthis : thisSegment.WellFormed) :
    ∀ x ∈ thisSegment.values, x ≤ thisSegment.values.getD (thisSegment.values.length - 1) 0 := by
  intro x hx
  obtain ⟨k, hk, rfl⟩ := List.getElem_of_mem hx
  rw [← List.getD_eq_getElem _ 0 hk]
  exact getD_le_getD hthis.sorted (by omega) (by omega)

theorem firstOne_le (hthis : thisSegment.WellFormed) :
    ∀ x ∈ thisSegment.values, thisSegment.values.getD 0 0 ≤ x := by
  intro x hx
  obtain ⟨k, hk, rfl⟩ := List.getElem_of_mem hx
  rw [← List.getD_eq_getElem _ 0 hk]
  exact getD_le_getD hthis.sorted (by omega) hk

/-- In place, all of a segment below the other one. -/
theorem append_append (hthis : thisSegment.WellFormed) (hinput : inputSegment.WellFormed)
    (hlt : ∀ x ∈ thisSegment.values, ∀ y ∈ inputSegment.values, x < y)
    (hallocated : allocated ≤ kSegmentMask) :
    let r := ((⟨allocated, thisSegment.fHighBits, []⟩ : Segment).append thisSegment 0
      thisSegment.values.length).bind fun tmpSegment =>
        (tmpSegment.append inputSegment 0 inputSegment.values.length).map fun tmpSegment =>
          (tmpSegment, true)
    (∀ p, r = some p → p.2 = true ∧ p.1.WellFormed ∧ p.1.fHighBits = thisSegment.fHighBits ∧
      ∀ x, x ∈ p.1.values ↔ x ∈ union thisSegment inputSegment) ∧
    ((union thisSegment inputSegment).card ≤ allocated → r.isSome) := by
  have hsorted : (thisSegment.values ++ inputSegment.values).Pairwise (· < ·) :=
    List.pairwise_append.2 ⟨hthis.sorted, hinput.sorted, hlt⟩
  have hmem : ∀ x, x ∈ thisSegment.values ++ inputSegment.values ↔
      x ∈ union thisSegment inputSegment := by
    intro x
    rw [List.mem_append, mem_union]
  have hcard := length_eq_card hsorted hmem
  rw [List.length_append] at hcard
  dsimp only
  rw [Segment.append_of_le _ _ (Nat.zero_le _) (hthis.length_le.trans hthis.fSize_le)]
  dsimp only
  rw [List.length_nil, Nat.zero_add, Nat.sub_zero, List.take_length, List.drop_zero,
    List.nil_append]
  by_cases hfitsA : thisSegment.values.length ≤ allocated
  · rw [if_pos hfitsA, Option.bind_some,
      Segment.append_of_le _ _ (Nat.zero_le _) (hinput.length_le.trans hinput.fSize_le)]
    dsimp only
    rw [Nat.sub_zero, List.take_length, List.drop_zero]
    by_cases hfitsB : thisSegment.values.length + inputSegment.values.length ≤ allocated
    · rw [if_pos hfitsB]
      refine ⟨fun p hp => ?_, fun _ => rfl⟩
      obtain rfl := Option.some.inj hp
      refine ⟨rfl, wellFormed_of_union hthis hinput hsorted hmem ?_ hallocated, rfl, hmem⟩
      rw [List.length_append]
      exact hfitsB
    · rw [if_neg hfitsB]
      exact ⟨fun p hp => absurd hp (by simp), fun hle => absurd (hcard.trans_le hle) hfitsB⟩
  · rw [if_neg hfitsA]
    exact ⟨fun p hp => absurd hp (by simp), fun hle => absurd hle (by omega)⟩

/-- `OrSegment` merges the two segments, unless their union has all 65536 values. -/
theorem orSegment_spec (hthis : thisSegment.WellFormed) (hinput : inputSegment.WellFormed)
    (hhigh : thisSegment.fHighBits = inputSegment.fHighBits) (outputSegment : Segment)
    (isInplace : Bool) :
    (∀ r, orSegment thisSegment inputSegment outputSegment isInplace = some r →
      OrResult thisSegment inputSegment outputSegment isInplace r) ∧
    ((union thisSegment inputSegment).card ≤ kSegmentMask →
      (orSegment thisSegment inputSegment outputSegment isInplace).isSome) := by
  have hthisPos : 0 < thisSegment.values.length := List.length_pos_iff.2 hthis.ne_nil
  have hinputPos : 0 < inputSegment.values.length := List.length_pos_iff.2 hinput.ne_nil
  have hzeroThis : ¬ thisSegment.isZero = true := by
    rw [Segment.isZero, List.isEmpty_iff]
    exact hthis.ne_nil
  have hzeroInput : ¬ inputSegment.isZero = true := by
    rw [Segment.isZero, List.isEmpty_iff]
    exact hinput.ne_nil
  have hunion : (union thisSegment inputSegment).card ≤
      thisSegment.values.length + inputSegment.values.length := by
    refine (Finset.card_union_le _ _).trans (Nat.add_le_add ?_ ?_)
    · exact List.toFinset_card_le _
    · exact List.toFinset_card_le _
  unfold orSegment
  rw [if_neg hzeroInput, if_neg hzeroThis]
  dsimp only
  have htotal : ∃ toAllocate, (if thisSegment.populationCount + inputSegment.populationCount >
      kSegmentMask then kSegmentMask + 1
      else thisSegment.populationCount + inputSegment.populationCount) = toAllocate ∧
      2 ≤ toAllocate ∧ ((union thisSegment inputSegment).card ≤ kSegmentMask →
        (union thisSegment inputSegment).card ≤ toAllocate) := by
    refine ⟨_, rfl, ?_, ?_⟩
    · unfold Segment.populationCount kSegmentMask
      split <;> omega
    · unfold Segment.populationCount
      intro hle
      split <;> omega
  obtain ⟨toAllocate, heq, htwo, hcardLe⟩ := htotal
  rw [heq]
  have halloc : ∀ highBits, growSegment ⟨0, highBits, []⟩ thisSegment.fSize toAllocate =
      ⟨grownSize toAllocate, highBits, []⟩ := fun highBits => growSegment_fresh _ _ (by omega)
  have hmask := grownSize_le htwo
  have hcard : (union thisSegment inputSegment).card ≤ kSegmentMask →
      (union thisSegment inputSegment).card ≤ grownSize toAllocate :=
    fun hle => le_grownSize (hcardLe hle) hle
  by_cases hdisjoint : isInplace = true ∧ thisSegment.lastOne < inputSegment.firstOne
  · have hlt : ∀ x ∈ thisSegment.values, ∀ y ∈ inputSegment.values, x < y := by
      intro x hx y hy
      refine (le_lastOne hthis x hx).trans_lt (lt_of_lt_of_le ?_ (firstOne_le hinput y hy))
      have hones := hdisjoint.2
      unfold Segment.lastOne Segment.firstOne Segment.highBits at hones
      rw [hhigh] at hones
      exact Nat.lt_of_add_lt_add_left hones
    have hnot : ¬ ∀ x ∈ inputSegment.values, x ∈ thisSegment.values := by
      intro hsub
      obtain ⟨x, hx⟩ := List.exists_mem_of_ne_nil _ hinput.ne_nil
      exact lt_irrefl _ (hlt x (hsub x hx) x hx)
    obtain ⟨hsome, htotal⟩ := append_append hthis hinput hlt hmask
    rw [if_pos hdisjoint, halloc]
    refine ⟨fun r hr => ?_, fun hle => htotal (hcard hle)⟩
    rw [OrResult, if_neg hnot]
    exact hsome r hr
  · rw [if_neg hdisjoint]
    obtain ⟨hloop, hloopTotal⟩ := orSegmentLoop_spec hthis hinput
      (hthis.length_le.trans hthis.fSize_le) (hinput.length_le.trans hinput.fSize_le) halloc
      inputSegment.values.length 0 0 0 ⟨0, 0, []⟩ (by omega) (merging_empty hthis.ne_nil)
    unfold Segment.populationCount
    revert hloop hloopTotal
    generalize orSegmentLoop thisSegment inputSegment toAllocate inputSegment.values.length 0 0 0
      ⟨0, 0, []⟩ = result
    intro hloop hloopTotal
    cases result with
    | none =>
      exact ⟨fun r hr => absurd hr (by simp), fun hle => absurd (hloopTotal (hcard hle)) (by simp)⟩
    | some p =>
      obtain ⟨i', hmerging⟩ := hloop p rfl
      obtain ⟨i0, tmpSegment⟩ := p
      rw [Option.bind_some]
      dsimp only at hmerging ⊢
      by_cases hnil : tmpSegment.values = []
      · have hsub : ∀ x ∈ inputSegment.values, x ∈ thisSegment.values := by
          intro x hx
          have hmem := (hmerging.mem x).2 (.inr (by rwa [List.take_length]))
          rw [hnil] at hmem
          exact List.mem_of_mem_drop (hmem.resolve_left List.not_mem_nil)
        rw [if_pos (by rw [Segment.isZero, hnil]; rfl)]
        refine ⟨fun r hr => ?_, fun _ => rfl⟩
        rw [OrResult, if_pos hsub]
        exact (Option.some.inj hr).symm
      · obtain ⟨-, -, x, hx, hxThis⟩ := hmerging.started hnil
        have hnot : ¬ ∀ x ∈ inputSegment.values, x ∈ thisSegment.values :=
          fun hsub => hxThis (hsub x hx)
        obtain ⟨hsome, htotal⟩ := hmerging.finish hthis hinput hnil hmask
        rw [if_neg (by rw [Segment.isZero, List.isEmpty_iff]; exact hnil)]
        refine ⟨fun r hr => ?_, fun hle => ?_⟩
        · obtain ⟨s, hs, rfl⟩ := Option.map_eq_some_iff.1 hr
          rw [OrResult, if_neg hnot]
          exact ⟨rfl, hsome s hs⟩
        · rw [Option.isSome_map]
          exact htotal (hcard hle)

end Merge

end OMR.Compiler.SparseBitVector
