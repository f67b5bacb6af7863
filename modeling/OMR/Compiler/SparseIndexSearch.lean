import OMR.Compiler.SparseSegment

/-!
# Searches in a segment

`FindIndex` and `AdvanceIndex` give the position that splits the sorted array of a segment at a
value.
-/

namespace OMR.Compiler.SparseBitVector

variable {indices : List ℕ} {search low high t : ℕ}

/-- A position that splits a sorted array at a value: below it are the smaller elements. -/
structure IsIndex (indices : List ℕ) (search t : ℕ) : Prop where
  le_length : t ≤ indices.length
  below : ∀ i < t, indices.getD i 0 < search
  above : ∀ i, t ≤ i → i < indices.length → search ≤ indices.getD i 0

theorem getD_lt_getD (h : indices.Pairwise (· < ·)) {i j : ℕ} (hij : i < j)
    (hj : j < indices.length) : indices.getD i 0 < indices.getD j 0 := by
  rw [List.getD_eq_getElem _ _ (hij.trans hj), List.getD_eq_getElem _ _ hj]
  exact List.pairwise_iff_getElem.1 h i j (hij.trans hj) hj hij

theorem getD_le_getD (h : indices.Pairwise (· < ·)) {i j : ℕ} (hij : i ≤ j)
    (hj : j < indices.length) : indices.getD i 0 ≤ indices.getD j 0 := by
  rcases Nat.eq_or_lt_of_le hij with rfl | hlt
  · exact le_rfl
  · exact (getD_lt_getD h hlt hj).le

/-- Sorted numbers grow at least as fast as their positions. -/
theorem getD_add_le (h : indices.Pairwise (· < ·)) (i k : ℕ) (hk : i + k < indices.length) :
    indices.getD i 0 + k ≤ indices.getD (i + k) 0 := by
  induction k with
  | zero => exact le_rfl
  | succ k ih =>
    have hstep : indices.getD (i + k) 0 < indices.getD (i + (k + 1)) 0 :=
      getD_lt_getD h (by omega) hk
    have hle := ih (by omega)
    omega

theorem isIndex_of_le (h : indices.Pairwise (· < ·))
    (hbelow : ∀ i < t, indices.getD i 0 < search) (ht : t < indices.length)
    (hle : search ≤ indices.getD t 0) : IsIndex indices search t where
  le_length := ht.le
  below := hbelow
  above := fun _ hti hi => hle.trans (getD_le_getD h hti hi)

theorem isIndex_length (hbelow : ∀ i < indices.length, indices.getD i 0 < search) :
    IsIndex indices search indices.length where
  le_length := le_rfl
  below := hbelow
  above := fun _ hle hlt => absurd hle hlt.not_ge

theorem below_succ (hbelow : ∀ i < t, indices.getD i 0 < search)
    (ht : indices.getD t 0 < search) : ∀ i < t + 1, indices.getD i 0 < search := by
  intro i hi
  rcases Nat.lt_succ_iff_lt_or_eq.1 hi with hlt | rfl
  · exact hbelow i hlt
  · exact ht

theorem below_of_lt (h : indices.Pairwise (· < ·)) (ht : t < indices.length)
    (hlt : indices.getD t 0 < search) : ∀ i < t, indices.getD i 0 < search :=
  fun _ hi => (getD_lt_getD h hi ht).trans hlt

/-- Elements from which on nothing is smaller bound a search from above. -/
theorem le_of_below (hbelow : ∀ i < low, indices.getD i 0 < search)
    (hhigh : search ≤ indices.getD high 0) : low ≤ high := by
  by_contra hlt
  exact (hbelow high (by omega)).not_ge hhigh

theorem findIndexLinear_spec (h : indices.Pairwise (· < ·)) (hhigh : high < indices.length)
    (hle : search ≤ indices.getD high 0) (fuel low : ℕ) (hfuel : high ≤ low + fuel)
    (hbelow : ∀ i < low, indices.getD i 0 < search) :
    IsIndex indices search (findIndexLinear indices search high fuel low) := by
  induction fuel generalizing low with
  | zero =>
    have hlow : low = high := le_antisymm (le_of_below hbelow hle) hfuel
    exact isIndex_of_le h hbelow (hlow ▸ hhigh) (hlow ▸ hle)
  | succ fuel ih =>
    rw [findIndexLinear]
    split
    next hlt => exact ih (low + 1) (by omega) (below_succ hbelow hlt.2)
    next hnot =>
      have hlow := le_of_below hbelow hle
      refine isIndex_of_le h hbelow (by omega) ?_
      rcases Nat.eq_or_lt_of_le hlow with rfl | hlt
      · exact hle
      · by_contra hge
        exact hnot ⟨hlt, by omega⟩

theorem findIndexLoop_spec (h : indices.Pairwise (· < ·)) (fuel low high : ℕ)
    (hfuel : high - low < fuel) (hhigh : high < indices.length)
    (hle : search ≤ indices.getD high 0) (hbelow : ∀ i < low, indices.getD i 0 < search) :
    IsIndex indices search (findIndexLoop indices search fuel low high) := by
  induction fuel generalizing low high with
  | zero => exact absurd hfuel (Nat.not_lt_zero _)
  | succ fuel ih =>
    rw [findIndexLoop]
    dsimp only
    split
    next hwide =>
      have hmid : (high + low) / 2 < indices.length := by omega
      split
      next hlt => exact ih low _ (by omega) hmid hlt.le hbelow
      next hge =>
        split
        next hgt => exact ih _ high (by omega) hhigh hle (below_of_lt h hmid hgt)
        next hnot =>
          have heq : indices.getD ((high + low) / 2) 0 = search := by omega
          refine isIndex_of_le h ?_ hmid heq.ge
          intro i hi
          rw [← heq]
          exact getD_lt_getD h hi hmid
    next => exact findIndexLinear_spec h hhigh hle _ low (by omega) hbelow

/-- `FindIndex` over the whole array. -/
theorem findIndex_spec (h : indices.Pairwise (· < ·)) (hne : indices ≠ []) (search : ℕ) :
    IsIndex indices search (findIndex indices search 0 0) := by
  have hlen : 0 < indices.length := List.length_pos_iff.2 hne
  have hlast : indices.length - 1 < indices.length := by omega
  unfold findIndex
  rw [if_pos rfl]
  dsimp only
  split
  next hle => exact isIndex_of_le h (fun i hi => absurd hi (Nat.not_lt_zero i)) hlen hle
  next hfirst =>
    split
    next heq =>
      refine isIndex_of_le h ?_ hlast heq.le
      intro i hi
      rw [heq]
      exact getD_lt_getD h hi hlast
    next hne' =>
      split
      next hgt =>
        rw [Nat.sub_add_cancel hlen]
        exact isIndex_length fun i hi => (getD_le_getD h (by omega) hlast).trans_lt hgt
      next hle =>
        exact findIndexLoop_spec h _ 0 _ (by omega) hlast (by omega)
          fun i hi => absurd hi (Nat.not_lt_zero i)

theorem advanceIndexLinear_spec (h : indices.Pairwise (· < ·)) (hhigh : high < indices.length)
    (hle : search ≤ indices.getD high 0) (fuel low : ℕ) (hfuel : high < low + fuel)
    (hbelow : ∀ i < low, indices.getD i 0 < search) :
    IsIndex indices search (advanceIndexLinear indices search high fuel low) := by
  have hstop : ∀ t, (∀ i < t, indices.getD i 0 < search) →
      t > high ∨ indices.getD t 0 ≥ search → IsIndex indices search t := by
    intro t ht hor
    have htop := le_of_below ht hle
    exact isIndex_of_le h ht (by omega) (hor.resolve_left (by omega))
  induction fuel generalizing low with
  | zero => exact absurd (le_of_below hbelow hle) (by omega)
  | succ fuel ih =>
    rw [advanceIndexLinear]
    split
    next hwide =>
      split
      next h0 => exact hstop low hbelow (.inr h0)
      next h0 =>
        have hbelow₁ := below_succ hbelow (not_le.1 h0)
        split
        next h1 => exact hstop _ hbelow₁ (.inr h1)
        next h1 =>
          have hbelow₂ := below_succ hbelow₁ (not_le.1 h1)
          split
          next h2 => exact hstop _ hbelow₂ (.inr h2)
          next h2 =>
            have hbelow₃ := below_succ hbelow₂ (not_le.1 h2)
            split
            next h3 => exact hstop _ hbelow₃ (.inr h3)
            next h3 => exact ih (low + 4) (by omega) (below_succ hbelow₃ (not_le.1 h3))
    next hnarrow =>
      split
      next h0 => exact hstop low hbelow h0
      next h0 =>
        have hbelow₁ := below_succ hbelow (not_le.1 (not_or.1 h0).2)
        split
        next h1 => exact hstop _ hbelow₁ h1
        next h1 =>
          have hbelow₂ := below_succ hbelow₁ (not_le.1 (not_or.1 h1).2)
          split
          next h2 => exact hstop _ hbelow₂ h2
          next h2 =>
            have hbelow₃ := below_succ hbelow₂ (not_le.1 (not_or.1 h2).2)
            exact hstop _ hbelow₃ (.inl (by omega))

/-- A position is trimmed by the distance to the value only down to one that is high enough. -/
theorem le_getD_min (h : indices.Pairwise (· < ·)) (hhigh : high < indices.length)
    (hle : search ≤ indices.getD high 0) (low : ℕ) (hlow : indices.getD low 0 < search) :
    search ≤ indices.getD (min high (search - indices.getD low 0 + low)) 0 := by
  rcases Nat.le_total high (search - indices.getD low 0 + low) with hmin | hmin
  · rwa [Nat.min_eq_left hmin]
  · rw [Nat.min_eq_right hmin, Nat.add_comm]
    have hadd := getD_add_le h low (search - indices.getD low 0) (by omega)
    omega

theorem advanceIndexLoop_spec (h : indices.Pairwise (· < ·)) (fuel low high : ℕ)
    (hfuel : high - low < fuel) (hhigh : high < indices.length)
    (hle : search ≤ indices.getD high 0) (hbelow : ∀ i < low, indices.getD i 0 < search) :
    IsIndex indices search (advanceIndexLoop indices search fuel low high) := by
  induction fuel generalizing low high with
  | zero => exact absurd hfuel (Nat.not_lt_zero _)
  | succ fuel ih =>
    rw [advanceIndexLoop]
    dsimp only
    split
    next hwide =>
      have hmid : (high + low) / 2 < indices.length := by omega
      split
      next heq =>
        refine isIndex_of_le h ?_ hmid heq.ge
        intro i hi
        rw [← heq]
        exact getD_lt_getD h hi hmid
      next hne =>
        split
        next hgt => exact ih low _ (by omega) hmid hgt.le hbelow
        next hle' =>
          have hlt : indices.getD ((high + low) / 2) 0 < search := by omega
          exact ih _ _ (by omega) (by omega) (le_getD_min h hhigh hle _ hlt)
            (below_of_lt h hmid hlt)
    next => exact advanceIndexLinear_spec h hhigh hle _ low (by omega) hbelow

/-- `AdvanceIndex` from a position below which everything is smaller. -/
theorem advanceIndex_spec (h : indices.Pairwise (· < ·)) {low : ℕ} (hlow : low < indices.length)
    (hbelow : ∀ i < low, indices.getD i 0 < search) :
    IsIndex indices search (advanceIndex indices search low 0) := by
  have hlast : indices.length - 1 < indices.length := by omega
  unfold advanceIndex
  rw [if_pos rfl]
  dsimp only
  split
  next hge =>
    split
    next heq =>
      refine isIndex_of_le h ?_ hlast heq.le
      intro i hi
      rw [heq]
      exact getD_lt_getD h hi hlast
    next hne =>
      rw [Nat.sub_add_cancel (by omega)]
      exact isIndex_length fun i hi => (getD_le_getD h (by omega) hlast).trans_lt (by omega)
  next hlt =>
    split
    next hle => exact isIndex_of_le h hbelow hlow hle
    next hgt =>
      exact advanceIndexLoop_spec h _ low _ (by omega) (by omega)
        (le_getD_min h hlast (by omega) low (by omega)) hbelow

/-- The position is unique. -/
theorem IsIndex.le (h : IsIndex indices search t) {low : ℕ}
    (hbelow : ∀ i < low, indices.getD i 0 < search) (hlow : low ≤ indices.length) : low ≤ t := by
  by_contra hlt
  exact (hbelow t (by omega)).not_ge (h.above t le_rfl (by omega))

theorem IsIndex.take_lt (h : IsIndex indices search t) : ∀ x ∈ indices.take t, x < search := by
  intro x hx
  obtain ⟨i, hi, rfl⟩ := List.getElem_of_mem hx
  rw [List.length_take] at hi
  rw [List.getElem_take, ← List.getD_eq_getElem _ 0 (by omega)]
  exact h.below i (by omega)

theorem IsIndex.le_drop (h : IsIndex indices search t) : ∀ x ∈ indices.drop t, search ≤ x := by
  intro x hx
  obtain ⟨i, hi, rfl⟩ := List.getElem_of_mem hx
  rw [List.length_drop] at hi
  rw [List.getElem_drop, ← List.getD_eq_getElem _ 0 (by omega)]
  exact h.above _ (by omega) (by omega)

/-- A value is in the array exactly if it is at its position. -/
theorem IsIndex.mem_iff (h : IsIndex indices search t) (hsorted : indices.Pairwise (· < ·)) :
    search ∈ indices ↔ t < indices.length ∧ indices.getD t 0 = search := by
  constructor
  · intro hmem
    obtain ⟨i, hi, heq⟩ := List.getElem_of_mem hmem
    rw [← List.getD_eq_getElem _ 0 hi] at heq
    have hti : t ≤ i := by
      by_contra hlt
      exact (h.below i (by omega)).ne heq
    have hle := h.above t le_rfl (by omega)
    rcases Nat.eq_or_lt_of_le hti with rfl | hlt
    · exact ⟨hi, heq⟩
    · have hgt := getD_lt_getD hsorted hlt hi
      omega
  · rintro ⟨ht, rfl⟩
    rw [List.getD_eq_getElem _ _ ht]
    exact List.getElem_mem ht

end OMR.Compiler.SparseBitVector
