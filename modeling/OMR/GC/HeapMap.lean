import Mathlib.Tactic

/-!
# `MM_HeapMap`

The bit map over the heap of a 64-bit platform: one bit for each grain of the heap, a grain
being 8 bytes, or 16 in the compressed map of a segregated heap. The words of the map are
known by their indices.
-/

namespace OMR.GC

/-- `J9BITS_BITS_IN_SLOT`. -/
def bitsInSlot : ℕ := 64

/-- `MM_HeapMap`. `slot` is `getSlot`, and `heapBase` is `_heapMapBaseDelta` as well. -/
structure HeapMap where
  useCompressedHeapMap : Bool
  heapBase : ℕ
  slot : ℕ → BitVec 64

namespace HeapMap

variable (map : HeapMap)

/-- `_heapMapBitShift`. -/
def heapMapBitShift : ℕ := if map.useCompressedHeapMap then 4 else 3

/-- `_heapMapIndexShift`. -/
def heapMapIndexShift : ℕ := if map.useCompressedHeapMap then 6 + 4 else 9

/-- `_heapMapBitMask`. -/
def heapMapBitMask : ℕ := 2 ^ map.heapMapIndexShift - 1

/-- `getBitIndex`. -/
def getBitIndex (objectPtr : ℕ) : ℕ :=
  ((objectPtr - map.heapBase) &&& map.heapMapBitMask) >>> map.heapMapBitShift

/-- `getSlotIndex`. -/
def getSlotIndex (objectPtr : ℕ) : ℕ := (objectPtr - map.heapBase) >>> map.heapMapIndexShift

/-- `isBitSet`, with the mask that `getSlotIndexAndMask` gives. -/
def isBitSet (objectPtr : ℕ) : Bool :=
  map.slot (map.getSlotIndex objectPtr) &&& 1#64 <<< map.getBitIndex objectPtr ≠ 0#64

/-- `getFirstCellByMarkSlotIndex`. -/
def getFirstCellByMarkSlotIndex (slotIndex : ℕ) : ℕ :=
  map.heapBase + slotIndex <<< map.heapMapIndexShift

/-- The bytes that one bit stands for. -/
def objectGrain : ℕ := 2 ^ map.heapMapBitShift

/-- The number of the bit of an address, counted through all words. -/
def bitNumber (objectPtr : ℕ) : ℕ := (objectPtr - map.heapBase) / map.objectGrain

theorem two_pow_heapMapIndexShift : 2 ^ map.heapMapIndexShift = map.objectGrain * bitsInSlot := by
  unfold heapMapIndexShift objectGrain heapMapBitShift bitsInSlot
  split <;> rfl

theorem getSlotIndex_eq (objectPtr : ℕ) :
    map.getSlotIndex objectPtr = map.bitNumber objectPtr / bitsInSlot := by
  rw [getSlotIndex, Nat.shiftRight_eq_div_pow, two_pow_heapMapIndexShift, bitNumber,
    Nat.div_div_eq_div_mul]

theorem getBitIndex_eq (objectPtr : ℕ) :
    map.getBitIndex objectPtr = map.bitNumber objectPtr % bitsInSlot := by
  rw [getBitIndex, heapMapBitMask, Nat.and_two_pow_sub_one_eq_mod, Nat.shiftRight_eq_div_pow,
    two_pow_heapMapIndexShift, bitNumber]
  exact Nat.mod_mul_right_div_self ..

theorem getBitIndex_lt (objectPtr : ℕ) : map.getBitIndex objectPtr < bitsInSlot := by
  rw [getBitIndex_eq]
  exact Nat.mod_lt _ (by decide)

/-- A bit is set where the word of the address has it. -/
theorem isBitSet_eq (objectPtr : ℕ) : map.isBitSet objectPtr =
    (map.slot (map.getSlotIndex objectPtr)).getLsbD (map.getBitIndex objectPtr) := by
  have hlt := map.getBitIndex_lt objectPtr
  unfold bitsInSlot at hlt
  unfold isBitSet
  generalize map.slot (map.getSlotIndex objectPtr) = word
  generalize map.getBitIndex objectPtr = b at hlt
  rw [Bool.eq_iff_iff, decide_eq_true_eq]
  constructor
  · intro hne
    by_contra hunset
    refine hne (BitVec.eq_of_getLsbD_eq fun i hi => ?_)
    by_cases hib : i = b
    · rw [hib, BitVec.getLsbD_and, Bool.eq_false_of_not_eq_true hunset, Bool.false_and,
        BitVec.getLsbD_zero]
    · simp only [BitVec.getLsbD_and, BitVec.getLsbD_shiftLeft, BitVec.getLsbD_one,
        BitVec.getLsbD_zero]
      rcases Nat.lt_or_gt_of_ne hib with h | h
      · simp [h]
      · simp [show i - b ≠ 0 by omega]
  · intro hset hzero
    have hbit : (word &&& 1#64 <<< b).getLsbD b = (0#64).getLsbD b := by rw [hzero]
    simp only [BitVec.getLsbD_and, hset, BitVec.getLsbD_shiftLeft, BitVec.getLsbD_one,
      BitVec.getLsbD_zero] at hbit
    simp [hlt] at hbit

end HeapMap

end OMR.GC
