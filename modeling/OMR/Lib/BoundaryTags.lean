import Mathlib.Tactic
import Mathlib.Data.List.Chain

/-!
# Blocks with boundary tags

A stretch of a memory cut into blocks, each with its size in the cell before and
in the cell after it: positive for a free block, negated for an occupied one. The
list of the blocks is the abstract state; `Tiled` says that a memory shows it.
-/

namespace OMR.Lib

section Splits

variable {α : Type*} {b : α} {k₁ k₂ l₁ l₂ : List α}

/-- A cut of a list is before a given element or behind it. -/
theorem cut_cases (h : l₁ ++ b :: l₂ = k₁ ++ k₂) :
    (∃ a, l₁ = k₁ ++ a ∧ k₂ = a ++ b :: l₂) ∨ ∃ c, k₁ = l₁ ++ b :: c ∧ l₂ = c ++ k₂ := by
  rcases List.append_eq_append_iff.1 h with ⟨a, hk, hb⟩ | ⟨a, hl, hk⟩
  · cases a with
    | nil =>
      rw [List.append_nil] at hk
      rw [List.nil_append] at hb
      exact Or.inl ⟨[], by rw [hk, List.append_nil], hb.symm⟩
    | cons c a =>
      obtain ⟨rfl, rfl⟩ := List.cons.inj hb
      exact Or.inr ⟨a, hk, rfl⟩
  · exact Or.inl ⟨a, hl, hk⟩

end Splits

/-- A block of `size` cells between two tags. -/
structure Block where
  size : ℤ
  free : Bool
deriving DecidableEq, Repr

namespace Block

/-- The value of both tags. -/
def tag (b : Block) : ℤ := if b.free then b.size else -b.size

/-- The cells that the block takes with its tags. -/
def span (b : Block) : ℤ := b.size + 2

@[simp] theorem tag_free (n : ℤ) : tag ⟨n, true⟩ = n := rfl

@[simp] theorem tag_occupied (n : ℤ) : tag ⟨n, false⟩ = -n := rfl

end Block

/-- The number of cells that blocks take. -/
def extent (l : List Block) : ℤ := (l.map Block.span).sum

@[simp] theorem extent_nil : extent [] = 0 := rfl

@[simp] theorem extent_cons (b : Block) (l : List Block) : extent (b :: l) = b.size + 2 + extent l := by
  simp [extent, Block.span]

@[simp] theorem extent_append (l m : List Block) : extent (l ++ m) = extent l + extent m := by
  simp [extent]

/-- From cell `p` on, the memory shows the tags of the blocks. -/
def Tiled (m : ℤ → ℤ) : ℤ → List Block → Prop
  | _, [] => True
  | p, b :: l => 0 < b.size ∧ m p = b.tag ∧ m (p + b.size + 1) = b.tag ∧ Tiled m (p + b.size + 2) l

section Tiled

variable {m m' : ℤ → ℤ} {p : ℤ} {b : Block} {l l' : List Block}

@[simp] theorem tiled_nil : Tiled m p [] := trivial

theorem tiled_cons : Tiled m p (b :: l) ↔
    0 < b.size ∧ m p = b.tag ∧ m (p + b.size + 1) = b.tag ∧ Tiled m (p + b.size + 2) l := Iff.rfl

theorem Tiled.size_pos (h : Tiled m p l) (hb : b ∈ l) : 0 < b.size := by
  induction l generalizing p with
  | nil => simp at hb
  | cons c l ih =>
    rcases List.mem_cons.1 hb with rfl | hb
    · exact h.1
    · exact ih h.2.2.2 hb

theorem Tiled.extent_nonneg (h : Tiled m p l) : 0 ≤ extent l := by
  induction l generalizing p with
  | nil => simp
  | cons c l ih =>
    have hpos := h.1
    have htail := ih h.2.2.2
    rw [extent_cons]
    omega

theorem tiled_append : Tiled m p (l ++ l') ↔ Tiled m p l ∧ Tiled m (p + extent l) l' := by
  induction l generalizing p with
  | nil => simp
  | cons c l ih =>
    have hshift : p + c.size + 2 + extent l = p + extent (c :: l) := by
      rw [extent_cons]
      ring
    rw [List.cons_append, tiled_cons, tiled_cons, ih, hshift]
    tauto

/-- A block in the middle. -/
theorem tiled_middle : Tiled m p (l ++ b :: l') ↔ Tiled m p l ∧ 0 < b.size ∧
    m (p + extent l) = b.tag ∧ m (p + extent l + b.size + 1) = b.tag ∧
      Tiled m (p + extent l + b.size + 2) l' := by
  rw [tiled_append, tiled_cons]

/-- Only the cells of the blocks matter. -/
theorem Tiled.congr (h : Tiled m p l) (heq : ∀ i, p ≤ i → i < p + extent l → m' i = m i) :
    Tiled m' p l := by
  induction l generalizing p with
  | nil => trivial
  | cons c l ih =>
    obtain ⟨hpos, htop, hbottom, htail⟩ := h
    have hnonneg := htail.extent_nonneg
    rw [extent_cons] at heq
    refine ⟨hpos, ?_, ?_, ih htail fun i hi hi' => heq i (by omega) (by omega)⟩
    · rw [heq p le_rfl (by omega), htop]
    · rw [heq _ (by omega) (by omega), hbottom]

/-- Nothing between the tags of a block matters. -/
theorem Tiled.congr_inside (h : Tiled m p (l ++ b :: l'))
    (heq : ∀ i, ¬ (p + extent l < i ∧ i < p + extent l + b.size + 1) → m' i = m i) :
    Tiled m' p (l ++ b :: l') := by
  obtain ⟨hl, hpos, htop, hbottom, hl'⟩ := tiled_middle.1 h
  refine tiled_middle.2 ⟨hl.congr fun i _ hi => heq i (by omega), hpos, ?_, ?_,
    hl'.congr fun i hi _ => heq i (by omega)⟩
  · rw [heq _ (by omega), htop]
  · rw [heq _ (by omega), hbottom]

/-- Blocks in the middle are replaced by others that take as many cells. -/
theorem Tiled.replace {mid mid' : List Block} (h : Tiled m p (l ++ (mid ++ l')))
    (hext : extent mid' = extent mid) (hmid : Tiled m' (p + extent l) mid')
    (heq : ∀ i, p ≤ i → i < p + extent l ∨ p + extent l + extent mid ≤ i → m' i = m i) :
    Tiled m' p (l ++ (mid' ++ l')) := by
  obtain ⟨hl, hrest⟩ := tiled_append.1 h
  obtain ⟨hold, hl'⟩ := tiled_append.1 hrest
  have hnonneg := hl.extent_nonneg
  have hmidnonneg := hold.extent_nonneg
  refine tiled_append.2 ⟨hl.congr fun i hi hi' => heq i hi (Or.inl hi'), tiled_append.2 ⟨hmid, ?_⟩⟩
  rw [hext]
  exact hl'.congr fun i hi _ => heq i (by omega) (Or.inr hi)

end Tiled

/-- No two neighbours are both free. -/
def Coalesced (l : List Block) : Prop := l.IsChain fun a b => ¬ (a.free = true ∧ b.free = true)

/-- The first cell of the lowest free block from cell `p` on, or 0 if there is
none. -/
def firstFree : ℤ → List Block → ℤ
  | _, [] => 0
  | p, b :: l => if b.free then p else firstFree (p + b.span) l

section FirstFree

variable {p : ℤ} {b : Block} {l l' : List Block}

theorem firstFree_cons_free (h : b.free = true) : firstFree p (b :: l) = p := if_pos h

theorem firstFree_cons_occupied (h : b.free = false) :
    firstFree p (b :: l) = firstFree (p + b.size + 2) l := by
  rw [firstFree, h, Block.span, ← add_assoc]
  rfl

theorem firstFree_append_of_free (h : ∃ b ∈ l, b.free = true) :
    firstFree p (l ++ l') = firstFree p l := by
  induction l generalizing p with
  | nil => simp at h
  | cons c l ih =>
    rw [List.cons_append, firstFree, firstFree]
    by_cases hc : c.free = true
    · rw [if_pos hc, if_pos hc]
    · rw [if_neg hc, if_neg hc, ih]
      obtain ⟨b, hb, hfree⟩ := h
      rcases List.mem_cons.1 hb with rfl | hb
      · exact absurd hfree hc
      · exact ⟨b, hb, hfree⟩

theorem firstFree_append_of_occupied (h : ∀ b ∈ l, b.free = false) :
    firstFree p (l ++ l') = firstFree (p + extent l) l' := by
  induction l generalizing p with
  | nil => simp
  | cons c l ih =>
    rw [List.cons_append, firstFree_cons_occupied (h c (by simp)), ih fun b hb => h b (by simp [hb]),
      extent_cons]
    congr 1
    ring

theorem firstFree_eq_zero (h : ∀ b ∈ l, b.free = false) : firstFree p l = 0 := by
  have := @firstFree_append_of_occupied p l [] h
  rwa [List.append_nil] at this

/-- The lowest free block, if there is one. -/
theorem exists_firstFree (h : ∃ b ∈ l, b.free = true) :
    ∃ l₁ b l₂, l = l₁ ++ b :: l₂ ∧ (∀ c ∈ l₁, c.free = false) ∧ b.free = true ∧
      firstFree p l = p + extent l₁ := by
  induction l generalizing p with
  | nil => simp at h
  | cons c l ih =>
    by_cases hc : c.free = true
    · exact ⟨[], c, l, rfl, by simp, hc, by rw [firstFree_cons_free hc]; simp⟩
    · have hc' : c.free = false := by simpa using hc
      obtain ⟨b, hb, hfree⟩ := h
      obtain ⟨l₁, d, l₂, rfl, hl₁, hd, hfirst⟩ := @ih (p + c.size + 2) (by
        rcases List.mem_cons.1 hb with rfl | hb
        · exact absurd hfree hc
        · exact ⟨b, hb, hfree⟩)
      refine ⟨c :: l₁, d, l₂, rfl, ?_, hd, ?_⟩
      · intro e he
        rcases List.mem_cons.1 he with rfl | he
        · exact hc'
        · exact hl₁ e he
      · rw [firstFree_cons_occupied hc', hfirst, extent_cons]
        ring

/-- A free block is the lowest one exactly if all blocks before it are occupied. -/
theorem firstFree_middle_eq_iff {m : ℤ → ℤ} (h : Tiled m p (l ++ b :: l')) (hb : b.free = true) :
    p + extent l = firstFree p (l ++ b :: l') ↔ ∀ c ∈ l, c.free = false := by
  constructor
  · intro heq
    by_contra hsome
    push Not at hsome
    obtain ⟨c, hc, hfree⟩ := hsome
    have hexists : ∃ c ∈ l, c.free = true := ⟨c, hc, by simpa using hfree⟩
    obtain ⟨l₁, d, l₂, rfl, -, -, hfirst⟩ := @exists_firstFree p _ hexists
    obtain ⟨-, hpos, -, -, htail⟩ := tiled_middle.1 (tiled_append.1 h).1
    have := htail.extent_nonneg
    rw [firstFree_append_of_free hexists, hfirst, extent_append, extent_cons] at heq
    omega
  · intro hocc
    rw [firstFree_append_of_occupied hocc, firstFree_cons_free hb]

end FirstFree

/-- The cells after the first tags of the occupied blocks. -/
def occupied : ℤ → List Block → List ℤ
  | _, [] => []
  | p, b :: l => if b.free then occupied (p + b.span) l else (p + 1) :: occupied (p + b.span) l

section Occupied

variable {p : ℤ} {l l' : List Block}

theorem occupied_cons_free {b : Block} (h : b.free = true) :
    occupied p (b :: l) = occupied (p + b.size + 2) l := by
  rw [occupied, if_pos h, Block.span, ← add_assoc]

theorem occupied_cons_occupied {b : Block} (h : b.free = false) :
    occupied p (b :: l) = (p + 1) :: occupied (p + b.size + 2) l := by
  rw [occupied, if_neg (by simp [h]), Block.span, ← add_assoc]

theorem occupied_of_free (h : ∀ b ∈ l, b.free = true) : occupied p l = [] := by
  induction l generalizing p with
  | nil => rfl
  | cons c l ih => rw [occupied_cons_free (h c (by simp)), ih fun b hb => h b (by simp [hb])]

theorem occupied_append : occupied p (l ++ l') = occupied p l ++ occupied (p + extent l) l' := by
  induction l generalizing p with
  | nil => simp [occupied]
  | cons b l ih =>
    have hshift : p + b.span + extent l = p + extent (b :: l) := by
      rw [extent_cons, Block.span]
      ring
    rw [List.cons_append, occupied, occupied, ih, hshift]
    split_ifs <;> rfl

theorem mem_occupied {a : ℤ} : a ∈ occupied p l ↔
    ∃ l₁ b l₂, l = l₁ ++ b :: l₂ ∧ b.free = false ∧ a = p + extent l₁ + 1 := by
  constructor
  · intro ha
    induction l generalizing p with
    | nil => simp [occupied] at ha
    | cons b l ih =>
      have htail : a ∈ occupied (p + b.span) l →
          ∃ l₁ c l₂, b :: l = l₁ ++ c :: l₂ ∧ c.free = false ∧ a = p + extent l₁ + 1 := by
        intro ha
        obtain ⟨l₁, c, l₂, rfl, hc, rfl⟩ := ih ha
        refine ⟨b :: l₁, c, l₂, rfl, hc, ?_⟩
        rw [extent_cons, Block.span]
        ring
      rw [occupied] at ha
      split_ifs at ha with hb
      · exact htail ha
      · rcases List.mem_cons.1 ha with rfl | ha
        · exact ⟨[], b, l, rfl, by simpa using hb, by simp⟩
        · exact htail ha
  · rintro ⟨l₁, b, l₂, rfl, hb, rfl⟩
    rw [occupied_append, occupied, hb]
    simp

/-- The occupied blocks lie within the cells of all blocks. -/
theorem Tiled.occupied_bounds {m : ℤ → ℤ} (h : Tiled m p l) {a : ℤ} (ha : a ∈ occupied p l) :
    p < a ∧ a < p + extent l := by
  obtain ⟨l₁, b, l₂, rfl, -, rfl⟩ := mem_occupied.1 ha
  obtain ⟨hl₁, hpos, -, -, hl₂⟩ := tiled_middle.1 h
  have h₁ := hl₁.extent_nonneg
  have h₂ := hl₂.extent_nonneg
  rw [extent_append, extent_cons]
  omega

end Occupied

end OMR.Lib
