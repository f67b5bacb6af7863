import Mathlib.Tactic

/-!
# Emptying a graph

A graph is emptied by deleting one vertex after the other, each with less than a bound of
neighbours left. Whether this goes through does not depend on the order. A stack of the
vertices in the order of deletion has few neighbours above each of them.
-/

namespace OMR.Lib

variable {α : Type*} [DecidableEq α]

/-- The number of neighbours of a vertex among those left. -/
def degreeWithin (neighbours : α → List α) (remaining : Finset α) (k : α) : ℕ :=
  (neighbours k).countP fun l => l ∈ remaining

/-- All vertices can be deleted, each with few neighbours left. -/
inductive Emptied (neighbours : α → List α) (bound : ℕ) : Finset α → Prop where
  | empty : Emptied neighbours bound ∅
  | delete {remaining : Finset α} {k : α} (hk : k ∈ remaining)
      (hfew : degreeWithin neighbours remaining k < bound)
      (hrest : Emptied neighbours bound (remaining.erase k)) : Emptied neighbours bound remaining

/-- Each vertex of a stack has few neighbours among those that are not below it. -/
def Stacked (neighbours : α → List α) (bound : ℕ) (all : Finset α) : List α → Prop
  | [] => True
  | k :: below => degreeWithin neighbours (all \ below.toFinset) k < bound ∧
      Stacked neighbours bound all below

variable {neighbours : α → List α} {bound : ℕ} {remaining part : Finset α} {k : α}

theorem degreeWithin_mono (h : part ⊆ remaining) (k : α) :
    degreeWithin neighbours part k ≤ degreeWithin neighbours remaining k := by
  apply List.countP_mono_left
  intro l _ hl
  simp only [decide_eq_true_eq] at hl ⊢
  exact h hl

theorem degreeWithin_pos {m : α} (hmem : k ∈ neighbours m) (hk : k ∈ remaining) :
    0 < degreeWithin neighbours remaining m :=
  List.countP_pos_iff.2 ⟨k, hmem, decide_eq_true hk⟩

/-- A vertex that is deleted is a neighbour less for each of its own. -/
theorem degreeWithin_erase {m : α} (hnodup : (neighbours m).Nodup) (hk : k ∈ remaining) :
    degreeWithin neighbours (remaining.erase k) m =
      if k ∈ neighbours m then degreeWithin neighbours remaining m - 1
      else degreeWithin neighbours remaining m := by
  have herase : (neighbours m).filter (fun l => l ∈ remaining.erase k) =
      ((neighbours m).filter fun l => l ∈ remaining).erase k := by
    rw [(hnodup.filter _).erase_eq_filter, List.filter_filter]
    apply List.filter_congr
    intro l _
    rw [Bool.eq_iff_iff]
    simp
  have hmem : k ∈ (neighbours m).filter (fun l => l ∈ remaining) ↔ k ∈ neighbours m := by
    simp [hk]
  simp only [degreeWithin, List.countP_eq_length_filter, herase, List.length_erase, hmem]

namespace Emptied

/-- Every part of the graph has a vertex with few neighbours in it. -/
theorem exists_few (h : Emptied neighbours bound remaining) (hsub : part ⊆ remaining)
    (hne : part.Nonempty) : ∃ k ∈ part, degreeWithin neighbours part k < bound := by
  induction h with
  | empty =>
    obtain ⟨k, hk⟩ := hne
    exact absurd (hsub hk) (Finset.notMem_empty k)
  | @delete remaining k hk hfew hrest ih =>
    by_cases hmem : k ∈ part
    · exact ⟨k, hmem, (degreeWithin_mono hsub k).trans_lt hfew⟩
    · exact ih (Finset.subset_erase.2 ⟨hsub, hmem⟩)

theorem mono (h : Emptied neighbours bound remaining) (hsub : part ⊆ remaining) :
    Emptied neighbours bound part := by
  induction part using Finset.strongInduction with
  | H part ih =>
    obtain rfl | hne := part.eq_empty_or_nonempty
    · exact .empty
    · obtain ⟨k, hk, hfew⟩ := h.exists_few hsub hne
      exact .delete hk hfew
        (ih _ (Finset.erase_ssubset hk) ((Finset.erase_subset k part).trans hsub))

/-- A vertex with few neighbours may as well be deleted at once. -/
theorem erase_iff (hk : k ∈ remaining) (hfew : degreeWithin neighbours remaining k < bound) :
    Emptied neighbours bound (remaining.erase k) ↔ Emptied neighbours bound remaining := by
  constructor
  · exact .delete hk hfew
  · intro h
    exact h.mono (Finset.erase_subset k remaining)

/-- Nothing can be deleted where every vertex has many neighbours. -/
theorem not_of_many (hne : remaining.Nonempty)
    (hmany : ∀ k ∈ remaining, bound ≤ degreeWithin neighbours remaining k) :
    ¬ Emptied neighbours bound remaining := by
  intro h
  obtain ⟨k, hk, hfew⟩ := h.exists_few subset_rfl hne
  exact absurd hfew (hmany k hk).not_gt

end Emptied

/-- The neighbours that are left do not take up all colours. -/
theorem exists_notMem_colours (colour : α → ℕ)
    (hfew : degreeWithin neighbours remaining k < bound) :
    ∃ x < bound, ∀ l ∈ neighbours k, l ∈ remaining → colour l ≠ x := by
  have hcard : (((neighbours k).filter fun l => l ∈ remaining).map colour).toFinset.card <
      (Finset.range bound).card := by
    rw [Finset.card_range]
    apply (List.toFinset_card_le _).trans_lt
    rwa [List.length_map, ← List.countP_eq_length_filter]
  obtain ⟨x, hx, hnot⟩ := Finset.exists_mem_notMem_of_card_lt_card hcard
  refine ⟨x, Finset.mem_range.1 hx, fun l hl hrem heq => hnot ?_⟩
  rw [List.mem_toFinset, List.mem_map]
  exact ⟨l, List.mem_filter.2 ⟨hl, decide_eq_true hrem⟩, heq⟩

end OMR.Lib
