import Mathlib.Tactic
import Mathlib.Data.List.Sort
import Mathlib.Order.Interval.Set.OrdConnected
import Mathlib.Order.Bounds.Basic

/-!
# Ordered lists of integer intervals

A closed interval of integers is given by its two bounds. The lists here hold
non-empty intervals in increasing order, either merely disjoint (`Ordered`) or
with at least one integer missing between neighbours (`Separated`). `absorb`
adds an interval at the upper end of a separated list.
-/

namespace OMR.Lib

/-- The integers from `low` to `high`, both included. -/
@[ext] structure Interval where
  low : ℤ
  high : ℤ
deriving DecidableEq, Repr

namespace Interval

/-- The integers of an interval. -/
def values (i : Interval) : Set ℤ := Set.Icc i.low i.high

@[simp] theorem mem_values {i : Interval} {x : ℤ} : x ∈ i.values ↔ i.low ≤ x ∧ x ≤ i.high := Iff.rfl

end Interval

/-- The integers of some interval of a list. -/
def valuesOf (l : List Interval) : Set ℤ := {x | ∃ i ∈ l, x ∈ i.values}

@[simp] theorem mem_valuesOf_nil {x : ℤ} : x ∈ valuesOf [] ↔ False := by
  simp [valuesOf]

@[simp] theorem mem_valuesOf_cons {i : Interval} {l : List Interval} {x : ℤ} :
    x ∈ valuesOf (i :: l) ↔ x ∈ i.values ∨ x ∈ valuesOf l := by
  simp [valuesOf]

@[simp] theorem mem_valuesOf_append {l m : List Interval} {x : ℤ} :
    x ∈ valuesOf (l ++ m) ↔ x ∈ valuesOf l ∨ x ∈ valuesOf m := by
  simp only [valuesOf, Set.mem_ofPred_eq, List.mem_append]
  constructor
  · rintro ⟨i, hi | hi, hx⟩
    · exact Or.inl ⟨i, hi, hx⟩
    · exact Or.inr ⟨i, hi, hx⟩
  · rintro (⟨i, hi, hx⟩ | ⟨i, hi, hx⟩)
    · exact ⟨i, Or.inl hi, hx⟩
    · exact ⟨i, Or.inr hi, hx⟩

@[simp] theorem mem_valuesOf_reverse {l : List Interval} {x : ℤ} :
    x ∈ valuesOf l.reverse ↔ x ∈ valuesOf l := by
  simp [valuesOf]

/-- Non-empty intervals in increasing order without a common integer. -/
structure Ordered (l : List Interval) : Prop where
  nonempty : ∀ i ∈ l, i.low ≤ i.high
  apart : l.Pairwise fun a b => a.high < b.low

/-- Non-empty intervals in increasing order that neither meet nor touch. -/
structure Separated (l : List Interval) : Prop where
  nonempty : ∀ i ∈ l, i.low ≤ i.high
  gap : l.Pairwise fun a b => a.high + 1 < b.low

instance (l : List Interval) : Decidable (Ordered l) :=
  decidable_of_iff ((∀ i ∈ l, i.low ≤ i.high) ∧ l.Pairwise fun a b => a.high < b.low)
    ⟨fun h => ⟨h.1, h.2⟩, fun h => ⟨h.nonempty, h.apart⟩⟩

instance (l : List Interval) : Decidable (Separated l) :=
  decidable_of_iff ((∀ i ∈ l, i.low ≤ i.high) ∧ l.Pairwise fun a b => a.high + 1 < b.low)
    ⟨fun h => ⟨h.1, h.2⟩, fun h => ⟨h.nonempty, h.gap⟩⟩

theorem Separated.ordered {l : List Interval} (h : Separated l) : Ordered l :=
  ⟨h.nonempty, h.gap.imp fun hab => by omega⟩

namespace Ordered

variable {i j : Interval} {l : List Interval}

theorem nil : Ordered [] := ⟨by simp, List.Pairwise.nil⟩

theorem singleton (h : i.low ≤ i.high) : Ordered [i] := ⟨by simpa using h, by simp⟩

theorem tail (h : Ordered (i :: l)) : Ordered l :=
  ⟨fun j hj => h.nonempty j (List.mem_cons_of_mem _ hj), (List.pairwise_cons.1 h.apart).2⟩

theorem head_le (h : Ordered (i :: l)) : i.low ≤ i.high := h.nonempty i List.mem_cons_self

/-- Everything after the first interval lies above it. -/
theorem high_lt (h : Ordered (i :: l)) {x : ℤ} (hx : x ∈ valuesOf l) : i.high < x := by
  obtain ⟨j, hj, hjx⟩ := hx
  exact ((List.pairwise_cons.1 h.apart).1 j hj).trans_le hjx.1

theorem low_le (h : Ordered (i :: l)) {x : ℤ} (hx : x ∈ valuesOf (i :: l)) : i.low ≤ x := by
  rcases mem_valuesOf_cons.1 hx with hx | hx
  · exact hx.1
  · exact h.head_le.trans (h.high_lt hx).le

/-- An interval above all the others may be put behind them. -/
theorem append_singleton (h : Ordered l) (hi : i.low ≤ i.high)
    (hlt : ∀ j ∈ l, j.high < i.low) : Ordered (l ++ [i]) := by
  refine ⟨?_, List.pairwise_append.2 ⟨h.apart, by simp, ?_⟩⟩
  · intro j hj
    rcases List.mem_append.1 hj with hj | hj
    · exact h.nonempty j hj
    · rw [List.mem_singleton.1 hj]
      exact hi
  · intro j hj k hk
    rw [List.mem_singleton.1 hk]
    exact hlt j hj

/-- The lower bound of the first interval is the least integer of the list. -/
theorem isLeast_head (h : Ordered (i :: l)) : IsLeast (valuesOf (i :: l)) i.low :=
  ⟨mem_valuesOf_cons.2 (Or.inl ⟨le_rfl, h.head_le⟩), fun _ hx => h.low_le hx⟩

/-- The upper bound of the last interval is the greatest integer of the list. -/
theorem isGreatest_last (h : Ordered (l ++ [i])) : IsGreatest (valuesOf (l ++ [i])) i.high := by
  refine ⟨mem_valuesOf_append.2 (Or.inr ?_), ?_⟩
  · exact mem_valuesOf_cons.2 (Or.inl ⟨h.nonempty i (by simp), le_rfl⟩)
  · intro x hx
    rcases mem_valuesOf_append.1 hx with ⟨j, hj, hjx⟩ | hx
    · have hji : j.high < i.low :=
        (List.pairwise_append.1 h.apart).2.2 j hj i (List.mem_singleton_self i)
      have hi := h.nonempty i (by simp)
      have hxj := hjx.2
      show x ≤ i.high
      omega
    · rcases mem_valuesOf_cons.1 hx with hx | hx
      · exact hx.2
      · exact absurd hx (by simp)

end Ordered

/-- A list of two or more separated intervals has a hole. -/
theorem Separated.not_ordConnected {l : List Interval} (h : Separated l) (hl : 2 ≤ l.length) :
    ¬ (valuesOf l).OrdConnected := by
  obtain ⟨a, l', rfl⟩ := List.exists_cons_of_length_pos (by omega : 0 < l.length)
  have hl' : 1 < l'.length + 1 := hl
  obtain ⟨b, m, rfl⟩ := List.exists_cons_of_length_pos (by omega : 0 < l'.length)
  intro hconn
  have hab : a.high + 1 < b.low := (List.pairwise_cons.1 h.gap).1 b (by simp)
  have ha := h.nonempty a (by simp)
  have hb := h.nonempty b (by simp)
  -- the integer after the first interval is in none of the others
  have hmem : a.high + 1 ∈ valuesOf (a :: b :: m) := by
    refine hconn.out (x := a.high) (y := b.low) ?_ ?_ ⟨by omega, hab.le⟩
    · exact ⟨a, by simp, ha, le_rfl⟩
    · exact ⟨b, by simp, le_rfl, hb⟩
  rcases mem_valuesOf_cons.1 hmem with hx | ⟨c, hc, hx⟩
  · have := hx.2
    omega
  · have hac := (List.pairwise_cons.1 h.gap).1 c hc
    have := hx.1
    omega

/-- Put an interval behind a list that is kept last interval first: it extends
the last interval when the two meet or touch. -/
def absorb (l : List Interval) (i : Interval) : List Interval :=
  match l with
  | [] => [i]
  | j :: l => if i.low ≤ j.high + 1 then ⟨j.low, max j.high i.high⟩ :: l else i :: j :: l

/-- What `absorb` needs of the list it adds to: last interval first, separated,
and no interval that begins above the new one. -/
structure Accepts (l : List Interval) (i : Interval) : Prop where
  separated : Separated l.reverse
  low_le : ∀ j ∈ l, j.low ≤ i.low

theorem absorb_accepts {l : List Interval} {i j : Interval} (h : Accepts l i)
    (hi : i.low ≤ i.high) (hij : i.low ≤ j.low) : Accepts (absorb l i) j := by
  obtain ⟨⟨hne, hgap⟩, hlow⟩ := h
  rw [List.pairwise_reverse] at hgap
  cases l with
  | nil => exact ⟨⟨by simpa [absorb] using hi, by simp [absorb]⟩, by simpa [absorb] using hij⟩
  | cons k l =>
    have hk := hne k (by simp)
    have hki := hlow k (by simp)
    have htail := List.pairwise_cons.1 hgap
    by_cases hmeet : i.low ≤ k.high + 1
    · have hab : absorb (k :: l) i = ⟨k.low, max k.high i.high⟩ :: l := if_pos hmeet
      rw [hab]
      refine ⟨⟨?_, List.pairwise_reverse.2 (List.pairwise_cons.2 ⟨htail.1, htail.2⟩)⟩, ?_⟩
      · intro a ha
        rcases List.mem_cons.1 (List.mem_reverse.1 ha) with rfl | ha
        · exact hk.trans (le_max_left _ _)
        · exact hne a (by simp [ha])
      · intro a ha
        rcases List.mem_cons.1 ha with rfl | ha
        · exact hki.trans hij
        · exact (hlow a (by simp [ha])).trans hij
    · have hab : absorb (k :: l) i = i :: k :: l := if_neg hmeet
      rw [hab]
      refine ⟨⟨?_, List.pairwise_reverse.2 (List.pairwise_cons.2 ⟨?_, hgap⟩)⟩, ?_⟩
      · intro a ha
        rcases List.mem_cons.1 (List.mem_reverse.1 ha) with rfl | ha
        · exact hi
        · exact hne a (List.mem_reverse.2 ha)
      · intro a ha
        rcases List.mem_cons.1 ha with rfl | ha
        · omega
        · have := htail.1 a ha
          omega
      · intro a ha
        rcases List.mem_cons.1 ha with rfl | ha
        · exact hij
        · exact (hlow a ha).trans hij

theorem mem_valuesOf_absorb {l : List Interval} {i : Interval} (h : Accepts l i) {x : ℤ} :
    x ∈ valuesOf (absorb l i) ↔ x ∈ valuesOf l ∨ x ∈ i.values := by
  cases l with
  | nil => simp [absorb]
  | cons k l =>
    have hki := h.low_le k (by simp)
    have hk := h.separated.nonempty k (by simp)
    by_cases hmeet : i.low ≤ k.high + 1
    · have hab : absorb (k :: l) i = ⟨k.low, max k.high i.high⟩ :: l := if_pos hmeet
      -- the two intervals meet or touch, so the longer one has no further integers
      have hjoin : x ∈ Interval.values ⟨k.low, max k.high i.high⟩ ↔
          x ∈ k.values ∨ x ∈ i.values := by
        simp only [Interval.mem_values]
        omega
      rw [hab, mem_valuesOf_cons, mem_valuesOf_cons, hjoin]
      tauto
    · have hab : absorb (k :: l) i = i :: k :: l := if_neg hmeet
      rw [hab, mem_valuesOf_cons]
      tauto

/-- Absorbing intervals in the order of their lower bounds keeps a separated
list, and the list then holds the integers of all of them. -/
theorem foldl_absorb {m : List Interval} :
    ∀ {l : List Interval}, Separated l.reverse → (∀ j ∈ l, ∀ i ∈ m, j.low ≤ i.low) →
      (∀ i ∈ m, i.low ≤ i.high) → m.Pairwise (fun a b => a.low ≤ b.low) →
      Separated (m.foldl absorb l).reverse ∧
        ∀ x, x ∈ valuesOf (m.foldl absorb l) ↔ x ∈ valuesOf l ∨ x ∈ valuesOf m := by
  induction m with
  | nil => exact fun hl _ _ _ => ⟨hl, fun x => by simp⟩
  | cons i m ih =>
    intro l hl hlow hne hsorted
    have hi := hne i (by simp)
    have hacc : Accepts l i := ⟨hl, fun j hj => hlow j hj i (by simp)⟩
    have hnext := (absorb_accepts hacc hi le_rfl).separated
    have hlow' : ∀ j ∈ absorb l i, ∀ k ∈ m, j.low ≤ k.low := fun j hj k hk =>
      (absorb_accepts hacc hi ((List.pairwise_cons.1 hsorted).1 k hk)).low_le j hj
    obtain ⟨hsep, hvals⟩ := ih hnext hlow' (fun k hk => hne k (by simp [hk]))
      (List.pairwise_cons.1 hsorted).2
    refine ⟨hsep, fun x => ?_⟩
    rw [List.foldl_cons, hvals, mem_valuesOf_absorb hacc, mem_valuesOf_cons, or_assoc]

end OMR.Lib
