import Mathlib.Tactic
import OMR.Util.J9Pool

/-!
# The layout that `pool_new` computes

`pool_new` computes the bytes of a puddle in 32-bit arithmetic, in rounds, because the
bitmap depends on the number of elements and the number of elements on what a page has
left over. Where the exact size is within the bound that the code checks, nothing wraps
and the slots of every puddle lie inside its bytes.
-/

namespace OMR.Util.Pool

section RoundTo

variable {granularity : ℕ} (number : ℕ)

theorem le_roundTo (hg : 0 < granularity) : number ≤ roundTo granularity number := by
  have := Nat.mod_lt number hg
  unfold roundTo
  split <;> omega

theorem roundTo_lt (hg : 0 < granularity) :
    roundTo granularity number < number + granularity := by
  unfold roundTo
  split <;> omega

theorem dvd_roundTo (hg : 0 < granularity) : granularity ∣ roundTo granularity number := by
  have hlt := Nat.mod_lt number hg
  have hdiv := Nat.div_add_mod number granularity
  unfold roundTo
  split
  · have : number + granularity - number % granularity =
        granularity * (number / granularity + 1) := by
      rw [Nat.mul_add, Nat.mul_one]
      omega
    exact this ▸ Nat.dvd_mul_right _ _
  · exact Nat.dvd_of_mod_eq_zero (by omega)

/-- A start of a whole number of half granules, rounded up, stays within the rounded
size of what it follows and one granule less than the alignment. -/
theorem roundTo_header_le {align first base bits words : ℕ} (ha : 8 ∣ align) (hpos : 0 < align)
    (hf : 8 ∣ first) (hfirst : 0 < first) (hbase : 8 ∣ base) (hwords : words * 4 ≤ bits) :
    roundTo first (base + 64 + words * 4) ≤ base + (roundTo align (64 + bits) + (first - 8)) := by
  have hlt := roundTo_lt (base + 64 + words * 4) hfirst
  have hle := le_roundTo (64 + bits) hpos
  have hdvd₁ := hf.trans (dvd_roundTo (base + 64 + words * 4) hfirst)
  have hdvd₂ := ha.trans (dvd_roundTo (64 + bits) hpos)
  omega

end RoundTo

theorem u32_eq {n : ℕ} (h : n < 2 ^ 32) : u32 n = n := Nat.mod_eq_of_lt h

theorem sub32_eq {m n : ℕ} (h : n ≤ m) (hm : m < 2 ^ 32) : sub32 m n = m - n := by
  unfold sub32 u32
  omega

/-- What the operations rely on: slots that lie one behind the other in the bytes of the
puddle, aligned as the pool promises. -/
structure PuddleShape.WellShaped (shape : PuddleShape) : Prop where
  elementSize_pos : 0 < shape.elementSize
  elementsPerPuddle_pos : 0 < shape.elementsPerPuddle
  alignment_dvd : shape.alignment ∣ shape.elementSize
  sectors : shape.usesHoles = true → holeFrequency ∣ shape.elementsPerPuddle
  alignment_pos : 0 < shape.alignment
  roomy : ∀ puddle, mallocAlignment ∣ puddle →
    shape.firstElementAddress puddle + shape.elementsPerPuddle * shape.elementSize ≤
      puddle + shape.puddleAllocSize

namespace PoolArgs

variable (args : PoolArgs)

/-- Whether the exact element size asks for holes. -/
def exactHoles : Bool :=
  let size := roundTo args.alignment args.structSize
  (size = 4 ∨ size = 8 ∨ size = 16) ∧ size - args.structSize < sizeofSRP ∧
    args.alignment % mallocAlignment = 0

/-- The element size without truncation. -/
def exactElementSize : ℕ :=
  let size := roundTo args.alignment args.structSize
  if args.exactHoles then size
  else if size - args.structSize < sizeofSRP then
    roundTo args.alignment (args.structSize + sizeofSRP)
  else size

/-- The slots that the elements asked for take, holes included. -/
def exactSlots : ℕ :=
  if args.exactHoles then (args.minNumberElements + 14) / 15 * holeFrequency
  else args.minNumberElements

/-- The alignment of the first element without truncation. -/
def exactFirstAlignment : ℕ :=
  if args.exactHoles then args.exactElementSize * holeFrequency else args.alignment

/-- The bytes of a puddle with a bitmap of the given size, without truncation and before
any rounding to pages. -/
def exactAllocSize (bitsSize : ℕ) : ℕ :=
  args.exactElementSize * args.exactSlots +
    (roundTo args.alignment (sizeofPuddle + bitsSize) +
      (args.exactFirstAlignment - mallocAlignment))

/-- Arguments whose layout stays inside 32-bit arithmetic: an alignment of the kind that
`memAlloc` respects and the pool can store, and a puddle within the bound that
`pool_new` means to check. -/
structure Sized : Prop where
  alignment_dvd : mallocAlignment ∣ args.alignment
  alignment_lt : args.alignment < 2 ^ 16
  allocSize_le : args.exactAllocSize ((args.minNumberElements + 31) / 8) ≤ 0x7FFFFFFF

instance : Decidable args.Sized :=
  decidable_of_iff (mallocAlignment ∣ args.alignment ∧ args.alignment < 2 ^ 16 ∧
      args.exactAllocSize ((args.minNumberElements + 31) / 8) ≤ 0x7FFFFFFF)
    ⟨fun ⟨h₁, h₂, h₃⟩ => ⟨h₁, h₂, h₃⟩, fun ⟨h₁, h₂, h₃⟩ => ⟨h₁, h₂, h₃⟩⟩

theorem alignment_pos : 0 < args.alignment := by
  unfold alignment mallocAlignment
  split <;> omega

theorem minNumberElements_pos : 0 < args.minNumberElements := by
  unfold minNumberElements
  split <;> omega

theorem exactSlots_pos : 0 < args.exactSlots := by
  have := args.minNumberElements_pos
  unfold exactSlots holeFrequency
  split <;> omega

theorem minNumberElements_le : args.minNumberElements ≤ args.exactSlots := by
  unfold exactSlots holeFrequency
  split <;> omega

theorem alignment_dvd_exactElementSize : args.alignment ∣ args.exactElementSize := by
  unfold exactElementSize
  dsimp only
  split
  · exact dvd_roundTo _ args.alignment_pos
  · split <;> exact dvd_roundTo _ args.alignment_pos

theorem roundTo_le_exactElementSize :
    roundTo args.alignment args.structSize ≤ args.exactElementSize := by
  have hs := roundTo_lt args.structSize args.alignment_pos
  have hle := le_roundTo (args.structSize + sizeofSRP) args.alignment_pos
  have hd₁ := dvd_roundTo args.structSize args.alignment_pos
  have hd₂ := dvd_roundTo (args.structSize + sizeofSRP) args.alignment_pos
  unfold exactElementSize
  dsimp only
  split
  · exact le_rfl
  · split
    · by_contra hlt
      -- both are multiples of the alignment, and the smaller one is more than one below
      obtain ⟨k₁, hk₁⟩ := hd₁
      obtain ⟨k₂, hk₂⟩ := hd₂
      rw [hk₁, hk₂, not_le] at hlt
      have : args.alignment * (k₂ + 1) ≤ args.alignment * k₁ :=
        Nat.mul_le_mul_left _ (Nat.lt_of_mul_lt_mul_left hlt)
      rw [Nat.mul_add, Nat.mul_one] at this
      omega
    · exact le_rfl

theorem exactElementSize_pos : 0 < args.exactElementSize := by
  have hle := le_roundTo (args.structSize + sizeofSRP) args.alignment_pos
  unfold exactElementSize exactHoles
  simp only [decide_eq_true_eq]
  unfold sizeofSRP at *
  split
  · omega
  · split <;> omega

variable {args}

namespace Sized

variable (h : args.Sized)

include h

theorem product_le : args.exactElementSize * args.exactSlots ≤ 0x7FFFFFFF := by
  have := h.allocSize_le
  unfold exactAllocSize at this
  omega

theorem exactElementSize_le : args.exactElementSize ≤ 0x7FFFFFFF :=
  (Nat.le_mul_of_pos_right _ args.exactSlots_pos).trans h.product_le

theorem exactSlots_le : 8 * args.exactSlots ≤ 0x7FFFFFFF := by
  have hdvd : 8 ∣ args.exactElementSize :=
    h.alignment_dvd.trans args.alignment_dvd_exactElementSize
  have : 8 ≤ args.exactElementSize := Nat.le_of_dvd args.exactElementSize_pos hdvd
  exact (Nat.mul_le_mul_right _ this).trans h.product_le

theorem structSizeRounded_eq :
    args.structSizeRounded = roundTo args.alignment args.structSize := by
  have := args.roundTo_le_exactElementSize.trans h.exactElementSize_le
  exact u32_eq (by omega)

theorem sub32_structSize :
    sub32 args.structSizeRounded args.structSize =
      roundTo args.alignment args.structSize - args.structSize := by
  have := args.roundTo_le_exactElementSize.trans h.exactElementSize_le
  rw [h.structSizeRounded_eq]
  exact sub32_eq (le_roundTo _ args.alignment_pos) (by omega)

theorem usesHoles_eq : args.usesHoles = args.exactHoles := by
  unfold usesHoles exactHoles
  rw [h.sub32_structSize, h.structSizeRounded_eq]

theorem roundedStructSize_eq : args.roundedStructSize = args.exactElementSize := by
  have hle := h.exactElementSize_le
  unfold roundedStructSize
  rw [h.usesHoles_eq, h.sub32_structSize, h.structSizeRounded_eq]
  unfold exactElementSize at hle ⊢
  dsimp only at hle ⊢
  split
  · rfl
  · split
    · rw [u32_eq]
      rw [if_neg ‹_›, if_pos ‹_›] at hle
      omega
    · rfl

theorem exactElementSize_of_holes (hh : args.exactHoles = true) :
    args.exactElementSize = 8 ∨ args.exactElementSize = 16 := by
  have hdvd : 8 ∣ args.exactElementSize :=
    h.alignment_dvd.trans args.alignment_dvd_exactElementSize
  have hsize : args.exactElementSize = roundTo args.alignment args.structSize := by
    unfold exactElementSize
    rw [if_pos hh]
  unfold exactHoles at hh
  simp only [decide_eq_true_eq] at hh
  omega

theorem exactFirstAlignment_bounds :
    8 ∣ args.exactFirstAlignment ∧ 8 ≤ args.exactFirstAlignment ∧
      args.exactFirstAlignment ≤ 2 ^ 16 := by
  have hdvd : 8 ∣ args.alignment := h.alignment_dvd
  have hpos := args.alignment_pos
  have hlt := h.alignment_lt
  unfold exactFirstAlignment holeFrequency
  split
  · obtain hs | hs := h.exactElementSize_of_holes ‹_› <;> omega
  · omega

theorem firstElementAlignment_eq : args.firstElementAlignment = args.exactFirstAlignment := by
  have hbounds := h.exactFirstAlignment_bounds
  unfold firstElementAlignment
  unfold exactFirstAlignment at hbounds ⊢
  rw [h.usesHoles_eq, h.roundedStructSize_eq]
  split
  · rw [if_pos ‹_›] at hbounds
    exact u32_eq (by omega)
  · rfl

theorem exactAllocSize_lt {bitsSize : ℕ} (hb : bitsSize ≤ 2 ^ 26) :
    args.exactAllocSize bitsSize < 2 ^ 31 + 2 ^ 26 + 2 ^ 18 := by
  have hprod := h.product_le
  have hround := roundTo_lt (sizeofPuddle + bitsSize) args.alignment_pos
  have halign := h.alignment_lt
  have hfirst := h.exactFirstAlignment_bounds
  unfold exactAllocSize sizeofPuddle at *
  omega

theorem puddleHeaderAllocSize_eq {bitsSize : ℕ} (hb : bitsSize ≤ 2 ^ 26) :
    args.puddleHeaderAllocSize bitsSize =
      roundTo args.alignment (sizeofPuddle + bitsSize) +
        (args.exactFirstAlignment - mallocAlignment) := by
  have hlt := h.exactAllocSize_lt hb
  obtain ⟨-, hge, hle⟩ := h.exactFirstAlignment_bounds
  unfold puddleHeaderAllocSize
  rw [h.firstElementAlignment_eq, sub32_eq (n := mallocAlignment) hge (by omega)]
  unfold exactAllocSize at hlt
  exact u32_eq (by omega)

end Sized

/-- Rounding to a page adds less than a page. -/
theorem allocSize_bounds (size : ℕ) : size ≤ args.allocSize size ∧
    args.allocSize size < size + 4096 := by
  have hpos : 0 < osPageSize := by decide
  have hle := le_roundTo size hpos
  have hlt := roundTo_lt size hpos
  unfold allocSize osPageSize at *
  split <;> omega

/-- One round of the loop: the slots asked for, and as many more as the bytes that the
rounding adds have room for. -/
theorem Sized.puddleLayout_eq (h : args.Sized) {bitsSize : ℕ} (hb : bitsSize ≤ 2 ^ 26) :
    ∃ extra, args.puddleLayout bitsSize =
        (args.allocSize (args.exactAllocSize bitsSize), args.exactSlots + extra) ∧
      args.exactElementSize * extra ≤
        args.allocSize (args.exactAllocSize bitsSize) - args.exactAllocSize bitsSize ∧
      (args.exactHoles = true → holeFrequency ∣ extra) := by
  have hlt := h.exactAllocSize_lt hb
  have hslots := h.exactSlots_le
  have hpage := args.allocSize_bounds (args.exactAllocSize bitsSize)
  have hpos := args.exactElementSize_pos
  unfold puddleLayout
  rw [h.usesHoles_eq, h.roundedStructSize_eq, h.puddleHeaderAllocSize_eq hb]
  by_cases hh : args.exactHoles = true
  · have hsize := h.exactElementSize_of_holes hh
    have hsectors : args.exactSlots = (args.minNumberElements + 14) / 15 * 16 := by
      unfold exactSlots holeFrequency
      rw [if_pos hh]
    have hsector : u32 (args.exactElementSize * holeFrequency) = args.exactElementSize * 16 :=
      u32_eq (by unfold holeFrequency; omega)
    have hnumber : u32 (args.minNumberElements + holeFrequency - 2) / (holeFrequency - 1) =
        (args.minNumberElements + 14) / 15 := by
      unfold holeFrequency
      rw [u32_eq (by omega)]
      rfl
    have htemp : u32 (args.exactElementSize * 16 * ((args.minNumberElements + 14) / 15) +
        (roundTo args.alignment (sizeofPuddle + bitsSize) +
          (args.exactFirstAlignment - mallocAlignment))) = args.exactAllocSize bitsSize := by
      have : args.exactElementSize * 16 * ((args.minNumberElements + 14) / 15) =
          args.exactElementSize * args.exactSlots := by
        rw [hsectors]
        ring
      rw [this]
      exact u32_eq (by unfold exactAllocSize at hlt; omega)
    simp only [hh, if_true, hsector, hnumber, htemp]
    generalize hslack : args.allocSize (args.exactAllocSize bitsSize) -
      args.exactAllocSize bitsSize = slack
    have hdiv : args.exactElementSize * 16 * (slack / (args.exactElementSize * 16)) ≤ slack :=
      Nat.mul_div_le _ _
    have hfew : slack / (args.exactElementSize * 16) ≤ 4096 :=
      (Nat.div_le_self _ _).trans (by omega)
    refine ⟨16 * (slack / (args.exactElementSize * 16)), ?_, ?_, ?_⟩
    · have hmore : (args.minNumberElements + 14) / 15 +
          slack / (args.exactElementSize * 16) < 2 ^ 27 := by omega
      unfold holeFrequency
      rw [u32_eq (hmore.trans (by norm_num)), u32_eq (by omega), Prod.mk.injEq]
      exact ⟨rfl, by omega⟩
    · rw [← Nat.mul_assoc]
      exact hdiv
    · exact fun _ => Nat.dvd_mul_right _ _
  · have hmin : args.exactSlots = args.minNumberElements := by
      unfold exactSlots
      rw [if_neg hh]
    have htemp : u32 (args.exactElementSize * args.minNumberElements +
        (roundTo args.alignment (sizeofPuddle + bitsSize) +
          (args.exactFirstAlignment - mallocAlignment))) = args.exactAllocSize bitsSize := by
      rw [← hmin]
      exact u32_eq (by unfold exactAllocSize at hlt; omega)
    rw [if_neg hh]
    simp only [htemp]
    generalize hslack : args.allocSize (args.exactAllocSize bitsSize) -
      args.exactAllocSize bitsSize = slack
    have hfew : slack / args.exactElementSize ≤ 4096 :=
      (Nat.div_le_self _ _).trans (by omega)
    refine ⟨slack / args.exactElementSize, ?_, Nat.mul_div_le _ _, fun hh' => absurd hh' hh⟩
    rw [u32_eq (by omega), hmin]

/-- The bitmap of a layout is small enough for the next round. -/
theorem Sized.puddleBitsSize_le (h : args.Sized) {slots : ℕ}
    (hs : slots ≤ args.exactSlots + 4096) : puddleBitsSize slots ≤ 2 ^ 26 ∧
      puddleBitsSize slots = (slots + 31) / 8 := by
  have := h.exactSlots_le
  unfold puddleBitsSize
  rw [u32_eq (by omega)]
  omega

/-- The loop ends in a layout whose own bitmap it has used. -/
theorem Sized.layoutLoop_spec (h : args.Sized) :
    ∀ (fuel bitsSize : ℕ) {layout : ℕ × ℕ}, bitsSize ≤ 2 ^ 26 →
      args.layoutLoop fuel bitsSize = some layout →
      ∃ extra, layout.2 = args.exactSlots + extra ∧
        (args.exactHoles = true → holeFrequency ∣ extra) ∧
        args.exactElementSize * extra +
          args.exactAllocSize ((layout.2 + 31) / 8) ≤ layout.1
  | 0, _, _, _, hl => nomatch hl
  | fuel + 1, bitsSize, layout, hb, hl => by
    obtain ⟨extra, hlayout, hextra, hholes⟩ := h.puddleLayout_eq hb
    have hpage := args.allocSize_bounds (args.exactAllocSize bitsSize)
    have hfew : extra ≤ 4096 := by
      have := Nat.le_mul_of_pos_left extra args.exactElementSize_pos
      omega
    obtain ⟨hsmall, heq⟩ :=
      h.puddleBitsSize_le (Nat.add_le_add_left hfew args.exactSlots)
    unfold layoutLoop at hl
    simp only [hlayout] at hl
    split at hl
    · rename_i hfix
      cases hl
      refine ⟨extra, rfl, hholes, ?_⟩
      dsimp only
      rw [← heq, hfix]
      omega
    · exact h.layoutLoop_spec fuel _ hsmall hl

end PoolArgs

/-- `pool_new` of arguments that keep inside the arithmetic gives a pool whose slots are
where the operations take them to be. -/
theorem poolNew_wellShaped {args : PoolArgs} (h : args.Sized) {fuel memory : ℕ} {pool : J9Pool}
    (hnew : poolNew args fuel memory = some pool) : pool.WellShaped := by
  unfold poolNew at hnew
  split at hnew
  · cases hnew
  split at hnew
  · cases hnew
  rename_i puddleAllocSize slots hloop
  split at hnew
  · cases hnew
  cases hnew
  have hslots := h.exactSlots_le
  have hbits : PoolArgs.puddleBitsSize args.minNumberElements ≤ 2 ^ 26 :=
    (h.puddleBitsSize_le (args.minNumberElements_le.trans (Nat.le_add_right _ _))).1
  obtain ⟨extra, hextra, hholes, hfit⟩ := h.layoutLoop_spec fuel _ hbits hloop
  dsimp only at hextra hfit
  obtain ⟨hfdvd, hfge, -⟩ := h.exactFirstAlignment_bounds
  have halign : args.alignment % 2 ^ 16 = args.alignment := Nat.mod_eq_of_lt h.alignment_lt
  refine ⟨?_, ?_, ?_, ?_, ?_, ?_⟩ <;>
    simp only [PoolArgs.firstPool, J9Pool.setPuddle, PuddleShape.firstElementAddress, halign, h.roundedStructSize_eq,
      h.usesHoles_eq]
  · exact args.exactElementSize_pos
  · rw [hextra]
    exact Nat.add_pos_left args.exactSlots_pos _
  · exact args.alignment_dvd_exactElementSize
  · intro hh
    rw [hextra]
    apply Dvd.dvd.add _ (hholes hh)
    unfold PoolArgs.exactSlots
    rw [if_pos hh]
    exact Nat.dvd_mul_left _ _
  · exact args.alignment_pos
  · intro puddle hpuddle
    have hfirst := roundTo_header_le h.alignment_dvd args.alignment_pos hfdvd (by omega) hpuddle
      (show (slots + 31) / 32 * 4 ≤ (slots + 31) / 8 by omega)
    change roundTo args.exactFirstAlignment _ + _ ≤ _
    unfold PoolArgs.exactAllocSize at hfit
    have hprod : slots * args.exactElementSize =
        args.exactElementSize * args.exactSlots + args.exactElementSize * extra := by
      rw [hextra]
      ring
    unfold sizeofPuddle mallocAlignment at *
    omega

end OMR.Util.Pool
