import OMR.Port.OmrHeap

/-!
# The invariant of the heap and the searches

`Inv m l` says that the slots `m` show the blocks `l`. The two searches are then
searches in the list, and every operation replaces a few neighbouring blocks.
-/

namespace OMR.Port.OmrHeap

open OMR.Lib Slots

/-! ## Rounding -/

theorem toNat_alignmentRoundDown (v : UInt64) :
    (alignmentRoundDown v).toNat = v.toNat / 8 * 8 := by
  have hmask : (~~~7 : UInt64).toNat = 2 ^ 64 - 8 := by decide
  have hlt := v.toNat_lt
  have hdiv : (v.toNat &&& (2 ^ 64 - 8)) / 2 ^ 3 = v.toNat / 2 ^ 3 := by
    rw [Nat.and_div_two_pow, show (2 ^ 64 - 8) / 2 ^ 3 = 2 ^ 61 - 1 by decide,
      Nat.and_two_pow_sub_one_eq_mod, Nat.mod_eq_of_lt (by omega)]
  have hmod : (v.toNat &&& (2 ^ 64 - 8)) % 2 ^ 3 = 0 := by
    rw [Nat.and_mod_two_pow, show (2 ^ 64 - 8) % 2 ^ 3 = 0 by decide, Nat.and_zero]
  rw [alignmentRoundDown, UInt64.toNat_and, hmask]
  omega

theorem alignmentRoundUp_eq (v : UInt64) : alignmentRoundUp v = alignmentRoundDown (v + 7) := rfl

/-- The number of slots that a request rounds up to. -/
def slotsFor (byteAmount : UInt64) : ℤ :=
  if byteAmount = 0 then 1 else ((byteAmount.toNat + 7) / 8 : ℕ)

theorem slotsFor_pos (byteAmount : UInt64) : 1 ≤ slotsFor byteAmount := by
  rw [slotsFor]
  split_ifs with hzero
  · exact le_rfl
  · have hpos : byteAmount.toNat ≠ 0 := fun h => hzero (UInt64.toNat_inj.1 h)
    omega

/-- Rounding a request up overflows only for sizes that no heap has. -/
theorem requestSlots_cases (byteAmount : UInt64) :
    (requestSlots byteAmount = none ∧ slotsFor byteAmount = 2 ^ 61) ∨
      requestSlots byteAmount = some (slotsFor byteAmount) := by
  have hlt := byteAmount.toNat_lt
  rw [requestSlots, slotsFor]
  by_cases hzero : byteAmount = 0
  · rw [if_pos hzero, if_pos hzero]
    exact Or.inr rfl
  · rw [if_neg hzero, if_neg hzero]
    have hround : (alignmentRoundUp byteAmount).toNat = (byteAmount.toNat + 7) % 2 ^ 64 / 8 * 8 := by
      rw [alignmentRoundUp_eq, toNat_alignmentRoundDown, UInt64.toNat_add]
      rfl
    have hdiv : (alignmentRoundUp byteAmount / 8).toNat = (byteAmount.toNat + 7) % 2 ^ 64 / 8 := by
      rw [UInt64.toNat_div, hround]
      show _ / 8 = _
      omega
    have hmul : (alignmentRoundUp byteAmount / 8 * 8).toNat =
        (byteAmount.toNat + 7) % 2 ^ 64 / 8 * 8 := by
      rw [UInt64.toNat_mul, hdiv]
      show _ * 8 % 2 ^ 64 = _
      omega
    have hpos : byteAmount.toNat ≠ 0 := fun h => hzero (UInt64.toNat_inj.1 h)
    simp only [gt_iff_lt, UInt64.lt_iff_toNat_lt, hmul, hdiv]
    by_cases hover : byteAmount.toNat + 7 < 2 ^ 64
    · rw [Nat.mod_eq_of_lt hover, if_neg (by omega)]
      exact Or.inr rfl
    · have hmod : (byteAmount.toNat + 7) % 2 ^ 64 = byteAmount.toNat + 7 - 2 ^ 64 := by omega
      rw [if_pos (by omega)]
      refine Or.inl ⟨rfl, ?_⟩
      have hslots : (byteAmount.toNat + 7) / 8 = 2 ^ 61 := by omega
      rw [hslots]
      rfl

/-! ## The invariant -/

/-- The cursor stands at a block, and no free block before it is larger than the
size that goes with it. -/
def CursorAt (m : Slots) (l : List Block) : Prop :=
  ∃ l₁ l₂, l = l₁ ++ l₂ ∧ l₂ ≠ [] ∧ m.lastAllocSlot = headerSlots + extent l₁ ∧
    ∀ b ∈ l₁, b.free = true → b.size ≤ m.largestAllocSizeVisited

/-- The slots show the blocks `l`, and there are no more of them than an address
space holds. On a full heap the cursor may be 0, which is no
block: `omrheap_reallocate` leaves it so. -/
structure Inv (m : Slots) (l : List Block) : Prop where
  tiled : Tiled m headerSlots l
  size : m.heapSize = headerSlots + extent l
  fits : m.heapSize < 2 ^ 61
  nonempty : l ≠ []
  coalesced : Coalesced l
  first : m.firstFreeBlock = firstFree headerSlots l
  cursor : (m.firstFreeBlock = 0 ∧ m.lastAllocSlot = 0) ∨ CursorAt m l

section Searches

variable {m : Slots} {p lastSlot : ℤ} {l : List Block}

/-- One round of the search at a block. -/
theorem findFit_cons {b : Block} {n g : ℤ} (h : Tiled m p (b :: l))
    (hlast : lastSlot = p + extent (b :: l) - 1) :
    findFit m lastSlot n p g =
      if b.free = true then
        if n ≤ b.size then (some p, g) else findFit m lastSlot n (p + b.size + 2) (max g b.size)
      else findFit m lastSlot n (p + b.size + 2) g := by
  obtain ⟨hpos, htop, -, htail⟩ := h
  have hnonneg := htail.extent_nonneg
  rw [extent_cons] at hlast
  rw [findFit, if_pos (by omega), htop]
  cases hb : b.free with
  | true =>
    have htag : b.tag = b.size := if_pos hb
    have hmax : (if b.size > g then b.size else g) = max g b.size := by
      rw [max_def]
      split_ifs <;> omega
    rw [htag, if_neg (by omega), if_pos rfl, hmax, ← add_assoc]
  | false =>
    have htag : b.tag = -b.size := if_neg (by simp [hb])
    rw [htag, if_pos (by omega), if_neg (by simp), neg_neg, ← add_assoc]

/-- The search from a block on: a first fit, or none of the free blocks is large
enough. -/
theorem findFit_spec {n g : ℤ} (h : Tiled m p l) (hlast : lastSlot = p + extent l - 1) :
    ((findFit m lastSlot n p g).1 = none ∧ ∀ b ∈ l, b.free = true → b.size < n) ∨
      ∃ l₁ b l₂ g', l = l₁ ++ b :: l₂ ∧ b.free = true ∧ n ≤ b.size ∧
        findFit m lastSlot n p g = (some (p + extent l₁), g') ∧ g ≤ g' ∧
        ∀ c ∈ l₁, c.free = true → c.size ≤ g' := by
  induction l generalizing p g with
  | nil =>
    rw [extent_nil] at hlast
    rw [findFit, if_neg (by omega)]
    exact Or.inl ⟨rfl, by simp⟩
  | cons b l ih =>
    have hnext : lastSlot = p + b.size + 2 + extent l - 1 := by
      rw [hlast, extent_cons]
      ring
    have hshift : ∀ l₁ : List Block, p + b.size + 2 + extent l₁ = p + extent (b :: l₁) := by
      intro l₁
      rw [extent_cons]
      ring
    rw [findFit_cons h hlast]
    by_cases hb : b.free = true
    · rw [if_pos hb]
      by_cases hfit : n ≤ b.size
      · exact Or.inr ⟨[], b, l, g, rfl, hb, hfit, by simp [hfit], le_rfl, by simp⟩
      · rw [if_neg hfit]
        rcases @ih (p + b.size + 2) (max g b.size) h.2.2.2 hnext with
          ⟨hnone, hall⟩ | ⟨l₁, c, l₂, g', rfl, hc, hcn, hfind, hg, hall⟩
        · refine Or.inl ⟨hnone, fun c hc hfree => ?_⟩
          rcases List.mem_cons.1 hc with rfl | hc
          · omega
          · exact hall c hc hfree
        · refine Or.inr ⟨b :: l₁, c, l₂, g', rfl, hc, hcn, by rw [hfind, hshift],
            (le_max_left _ _).trans hg, fun d hd hfree => ?_⟩
          rcases List.mem_cons.1 hd with rfl | hd
          · exact (le_max_right _ _).trans hg
          · exact hall d hd hfree
    · rw [if_neg hb]
      rcases @ih (p + b.size + 2) g h.2.2.2 hnext with
        ⟨hnone, hall⟩ | ⟨l₁, c, l₂, g', rfl, hc, hcn, hfind, hg, hall⟩
      · refine Or.inl ⟨hnone, fun c hc hfree => ?_⟩
        rcases List.mem_cons.1 hc with rfl | hc
        · exact absurd hfree hb
        · exact hall c hc hfree
      · refine Or.inr ⟨b :: l₁, c, l₂, g', rfl, hc, hcn, by rw [hfind, hshift], hg,
          fun d hd hfree => ?_⟩
        rcases List.mem_cons.1 hd with rfl | hd
        · exact absurd hfree hb
        · exact hall d hd hfree

/-- The search for the next free block. -/
theorem nextFree_eq (h : Tiled m p l) (hlast : lastSlot = p + extent l - 1) :
    nextFree m lastSlot p = firstFree p l := by
  induction l generalizing p with
  | nil =>
    rw [extent_nil] at hlast
    rw [nextFree, if_neg (by omega), firstFree]
  | cons b l ih =>
    obtain ⟨hpos, htop, -, htail⟩ := h
    have hnonneg := htail.extent_nonneg
    rw [extent_cons] at hlast
    rw [nextFree, if_pos (by omega), htop]
    cases hb : b.free with
    | true =>
      have htag : b.tag = b.size := if_pos hb
      rw [htag, if_pos hpos, firstFree_cons_free hb]
    | false =>
      have htag : b.tag = -b.size := if_neg (by simp [hb])
      rw [htag, if_neg (by omega), neg_neg, ← add_assoc, firstFree_cons_occupied hb]
      exact ih htail (by omega)

end Searches

namespace Inv

variable {m : Slots} {l : List Block}

/-- Blocks that take as many slots as before. -/
theorem update {m' : Slots} {l' : List Block} (h : Inv m l) (htiled : Tiled m' headerSlots l')
    (hsize : m'.heapSize = m.heapSize) (hextent : extent l' = extent l) (hne : l' ≠ [])
    (hcoalesced : Coalesced l') (hfirst : m'.firstFreeBlock = firstFree headerSlots l')
    (hcursor : (m'.firstFreeBlock = 0 ∧ m'.lastAllocSlot = 0) ∨ CursorAt m' l') : Inv m' l' :=
  ⟨htiled, by rw [hsize, h.size, hextent], by rw [hsize]; exact h.fits, hne, hcoalesced, hfirst,
    hcursor⟩

theorem size_lt (h : Inv m l) {b : Block} (hb : b ∈ l) : b.size < m.heapSize := by
  obtain ⟨l₁, l₂, rfl⟩ := List.append_of_mem hb
  obtain ⟨hl₁, hpos, -, -, hl₂⟩ := tiled_middle.1 h.tiled
  have h₁ := hl₁.extent_nonneg
  have h₂ := hl₂.extent_nonneg
  rw [h.size, extent_append, extent_cons, headerSlots]
  omega

/-- A heap with a free block has a non-zero `firstFreeBlock`. -/
theorem firstFreeBlock_pos (h : Inv m l) (hfree : ∃ b ∈ l, b.free = true) :
    4 ≤ m.firstFreeBlock := by
  obtain ⟨l₁, b, l₂, rfl, -, -, hfirst⟩ := @exists_firstFree headerSlots _ hfree
  have hnonneg := (tiled_append.1 h.tiled).1.extent_nonneg
  rw [h.first, hfirst, headerSlots]
  omega

theorem firstFreeBlock_eq_zero_iff (h : Inv m l) :
    m.firstFreeBlock = 0 ↔ ∀ b ∈ l, b.free = false := by
  constructor
  · intro hzero b hb
    by_contra hfree
    have := h.firstFreeBlock_pos ⟨b, hb, by simpa using hfree⟩
    omega
  · intro hall
    rw [h.first, firstFree_eq_zero hall]

theorem exists_free (h : Inv m l) (hfree : m.firstFreeBlock ≠ 0) : ∃ b ∈ l, b.free = true := by
  by_contra hnone
  push Not at hnone
  exact hfree (h.firstFreeBlock_eq_zero_iff.2 fun b hb => by simpa using hnone b hb)

/-- The search starts at the first free block, or at the cursor when nothing before
it is large enough. -/
theorem search_spec (h : Inv m l) {n : ℤ} (hfree : m.firstFreeBlock ≠ 0) :
    (((if n ≤ m.largestAllocSizeVisited then
          findFit m (m.heapSize - 1) n m.firstFreeBlock 0
        else findFit m (m.heapSize - 1) n m.lastAllocSlot m.largestAllocSizeVisited).1 = none) ∧
        ∀ b ∈ l, b.free = true → b.size < n) ∨
      ∃ l₁ b l₂ g, l = l₁ ++ b :: l₂ ∧ b.free = true ∧ n ≤ b.size ∧
        (if n ≤ m.largestAllocSizeVisited then
          findFit m (m.heapSize - 1) n m.firstFreeBlock 0
        else findFit m (m.heapSize - 1) n m.lastAllocSlot m.largestAllocSizeVisited) =
          (some (headerSlots + extent l₁), g) ∧
        ∀ c ∈ l₁, c.free = true → c.size ≤ g := by
  have hlast : ∀ {l₁ l₂ : List Block}, l = l₁ ++ l₂ →
      m.heapSize - 1 = headerSlots + extent l₁ + extent l₂ - 1 := by
    rintro l₁ l₂ rfl
    rw [h.size, extent_append]
    ring
  by_cases hn : n ≤ m.largestAllocSizeVisited
  · simp only [if_pos hn]
    obtain ⟨l₁, b, l₂, hl, hocc, hb, hfirst⟩ := @exists_firstFree headerSlots _ (h.exists_free hfree)
    have htiled := (tiled_append.1 (hl ▸ h.tiled)).2
    rw [h.first, hfirst]
    rcases @findFit_spec _ _ _ _ n 0 htiled (hlast hl) with
      ⟨hnone, hall⟩ | ⟨k₁, c, k₂, g, hk, hc, hcn, hfind, -, hvisited⟩
    · refine Or.inl ⟨hnone, fun c hc hcfree => ?_⟩
      rw [hl] at hc
      rcases List.mem_append.1 hc with hc | hc
      · rw [hocc c hc] at hcfree
        cases hcfree
      · exact hall c hc hcfree
    · refine Or.inr ⟨l₁ ++ k₁, c, k₂, g, by rw [hl, hk, List.append_assoc], hc, hcn, ?_, ?_⟩
      · rw [hfind, extent_append, add_assoc]
      · intro d hd hdfree
        rcases List.mem_append.1 hd with hd | hd
        · rw [hocc d hd] at hdfree
          cases hdfree
        · exact hvisited d hd hdfree
  · simp only [if_neg hn]
    obtain ⟨hfull, -⟩ | ⟨l₁, l₂, hl, -, hcursor, hbelow⟩ := h.cursor
    · exact absurd hfull hfree
    have htiled := (tiled_append.1 (hl ▸ h.tiled)).2
    rw [hcursor]
    rcases @findFit_spec _ _ _ _ n m.largestAllocSizeVisited htiled (hlast hl) with
      ⟨hnone, hall⟩ | ⟨k₁, c, k₂, g, hk, hc, hcn, hfind, hg, hvisited⟩
    · refine Or.inl ⟨hnone, fun c hc hcfree => ?_⟩
      rw [hl] at hc
      rcases List.mem_append.1 hc with hc | hc
      · have := hbelow c hc hcfree
        omega
      · exact hall c hc hcfree
    · refine Or.inr ⟨l₁ ++ k₁, c, k₂, g, by rw [hl, hk, List.append_assoc], hc, hcn, ?_, ?_⟩
      · rw [hfind, extent_append, add_assoc]
      · intro d hd hdfree
        rcases List.mem_append.1 hd with hd | hd
        · exact (hbelow d hd hdfree).trans hg
        · exact hvisited d hd hdfree

end Inv

end OMR.Port.OmrHeap
