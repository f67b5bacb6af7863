import OMR.Lib.WordBits

/-!
# Counting leading and trailing zeroes

`CS2::BitManipulator` finds the first bit of a word byte by byte, with a table for the bytes, and
the last one from the first bit of `~x & (x - 1)`.
-/

namespace OMR.Compiler.BitManipulator

open OMR.Lib

/-- `kByteLeadingZeroes`, of which the remainder is filled with zeroes. -/
def kByteLeadingZeroes : List ℕ :=
  [8, 7] ++ List.replicate 2 6 ++ List.replicate 4 5 ++ List.replicate 8 4 ++
    List.replicate 16 3 ++ List.replicate 32 2 ++ List.replicate 64 1

def byteLeadingZeroes (inputByte : BitVec 8) : ℕ := kByteLeadingZeroes.getD inputByte.toNat 0

/-- The loop of `EmulateLeadingZeroes` over the bytes that are left. -/
def findByte (inputWord : BitVec 32) : (bytes bitCount : ℕ) → (byteMask : BitVec 32) → ℕ
  | 0, _, _ => 32
  | bytes + 1, bitCount, byteMask =>
    let testWord := inputWord &&& byteMask
    if testWord ≠ 0 then
      bitCount + byteLeadingZeroes ((testWord >>> (24 - bitCount)).setWidth 8)
    else findByte inputWord bytes (bitCount + 8) (byteMask >>> 8)

def emulateLeadingZeroes32 (inputWord : BitVec 32) : ℕ := findByte inputWord 4 0 (0xFF#32 <<< 24)

def emulateLeadingZeroes64 (inputDoubleWord : BitVec 64) : ℕ :=
  let testWord := (inputDoubleWord >>> 32).setWidth 32
  if testWord = 0 then 32 + emulateLeadingZeroes32 (inputDoubleWord.setWidth 32)
  else emulateLeadingZeroes32 testWord

def trailingZeroes32 (inputWord : BitVec 32) : ℕ :=
  32 - emulateLeadingZeroes32 (~~~inputWord &&& (inputWord - 1))

def trailingZeroes64 (inputDoubleWord : BitVec 64) : ℕ :=
  let lowerWord := inputDoubleWord.setWidth 32
  if lowerWord = 0 then 32 + trailingZeroes32 ((inputDoubleWord >>> 32).setWidth 32)
  else trailingZeroes32 lowerWord

theorem byteLeadingZeroes_first (b : BitVec 8) : FirstBit b (byteLeadingZeroes b) := by
  have hbyte : ∀ b : BitVec 8, byteLeadingZeroes b ≤ 8 ∧
      (∀ i < byteLeadingZeroes b, b.getMsbD i = false) ∧
      (byteLeadingZeroes b < 8 → b.getMsbD (byteLeadingZeroes b) = true) := by
    decide +kernel
  exact ⟨(hbyte b).1, (hbyte b).2.1, (hbyte b).2.2⟩

section Bytes

variable {x : BitVec 32} {bytes bitCount : ℕ} {byteMask : BitVec 32}

/-- The byte that is tested after `bitCount` bits. -/
theorem getLsbD_testWord (hcount : bitCount ≤ 24) (m : ℕ) :
    (x &&& (0xFF#32 <<< (24 - bitCount))).getLsbD m =
      (x.getLsbD m && decide (24 - bitCount ≤ m ∧ m < 32 - bitCount)) := by
  have hbyte : ∀ i < 32, (0xFF#32).getLsbD i = decide (i < 8) := by decide
  rw [BitVec.getLsbD_and, BitVec.getLsbD_shiftLeft]
  by_cases hm : m < 32
  · rw [decide_eq_true hm, Bool.true_and, hbyte (m - (24 - bitCount)) (by omega)]
    refine congrArg (x.getLsbD m && ·) ?_
    rw [Bool.eq_iff_iff]
    simp only [Bool.and_eq_true, decide_eq_true_eq, Bool.not_eq_true', decide_eq_false_iff_not]
    omega
  · rw [BitVec.getLsbD_of_ge x m (by omega), Bool.false_and, Bool.false_and]

theorem getMsbD_byteValue (hcount : bitCount ≤ 24) {j : ℕ} (hj : j < 8) :
    (((x &&& (0xFF#32 <<< (24 - bitCount))) >>> (24 - bitCount)).setWidth 8).getMsbD j =
      x.getMsbD (bitCount + j) := by
  have heq : 24 - bitCount + (8 - 1 - j) = 32 - 1 - (bitCount + j) := by omega
  rw [BitVec.getMsbD_eq_getLsbD, BitVec.getMsbD_eq_getLsbD, BitVec.getLsbD_setWidth,
    BitVec.getLsbD_ushiftRight, getLsbD_testWord hcount, heq, decide_eq_true hj,
    decide_eq_true (show 8 - 1 - j < 8 by omega),
    decide_eq_true (show bitCount + j < 32 by omega),
    decide_eq_true (show 24 - bitCount ≤ 32 - 1 - (bitCount + j) ∧
      32 - 1 - (bitCount + j) < 32 - bitCount by omega), Bool.and_true, Bool.true_and]

/-- The loop ends with the first bit of the word, if there is none in front of the byte. -/
theorem findByte_first (hbytes : bitCount + 8 * bytes = 32)
    (hclear : ∀ i < bitCount, x.getMsbD i = false)
    (hmask : 0 < bytes → byteMask = 0xFF#32 <<< (24 - bitCount)) :
    FirstBit x (findByte x bytes bitCount byteMask) := by
  induction bytes generalizing bitCount byteMask with
  | zero =>
    obtain rfl : bitCount = 32 := by omega
    exact ⟨le_rfl, hclear, fun h => absurd h (lt_irrefl _)⟩
  | succ bytes ih =>
    have hcount : bitCount ≤ 24 := by omega
    have hmask := hmask (Nat.succ_pos _)
    subst hmask
    have hbyte := byteLeadingZeroes_first
      (((x &&& (0xFF#32 <<< (24 - bitCount))) >>> (24 - bitCount)).setWidth 8)
    rw [findByte]
    by_cases htest : x &&& (0xFF#32 <<< (24 - bitCount)) ≠ 0
    · rw [if_pos htest]
      have hlt : byteLeadingZeroes
          (((x &&& (0xFF#32 <<< (24 - bitCount))) >>> (24 - bitCount)).setWidth 8) < 8 := by
        by_contra hnot
        obtain ⟨m, hm, hbit⟩ := word_ne_zero_iff.1 htest
        rw [getLsbD_testWord hcount, Bool.and_eq_true, decide_eq_true_eq] at hbit
        obtain ⟨hbit, hlow, hhigh⟩ := hbit
        have hbyteBit := hbyte.clear (31 - bitCount - m) (by omega)
        have heq : 32 - 1 - (bitCount + (31 - bitCount - m)) = m := by omega
        rw [getMsbD_byteValue hcount (by omega), BitVec.getMsbD_eq_getLsbD, heq, hbit,
          decide_eq_true (by omega)] at hbyteBit
        exact Bool.noConfusion hbyteBit
      refine ⟨by omega, fun i hi => ?_, fun _ => ?_⟩
      · rcases Nat.lt_or_ge i bitCount with hlt' | hge
        · exact hclear i hlt'
        · have hi' := hbyte.clear (i - bitCount) (by omega)
          rwa [getMsbD_byteValue hcount (by omega), Nat.add_sub_of_le hge] at hi'
      · have hset := hbyte.set hlt
        rwa [getMsbD_byteValue hcount hlt] at hset
    · rw [if_neg htest]
      rw [not_not] at htest
      refine ih (by omega) (fun i hi => ?_) fun hpos => ?_
      · rcases Nat.lt_or_ge i bitCount with hlt | hge
        · exact hclear i hlt
        · rw [← Nat.add_sub_of_le hge, ← getMsbD_byteValue hcount (by omega), htest]
          simp
      · have hle : bytes ≤ 3 := by omega
        obtain rfl : bitCount = 24 - 8 * bytes := by omega
        interval_cases bytes <;> decide

end Bytes

theorem emulateLeadingZeroes32_first (x : BitVec 32) : FirstBit x (emulateLeadingZeroes32 x) :=
  findByte_first rfl (fun _ h => absurd h (Nat.not_lt_zero _)) fun _ => rfl

/-- The two halves of a doubleword. -/
theorem halves (upper lower : BitVec 32) :
    ((upper ++ lower) >>> 32).setWidth 32 = upper ∧ (upper ++ lower).setWidth 32 = lower :=
  ⟨by rw [BitVec.setWidth_ushiftRight_eq_extractLsb, BitVec.extractLsb'_append_eq_left],
    BitVec.setWidth_append_eq_right⟩

theorem emulateLeadingZeroes64_first (x : BitVec 64) : FirstBit x (emulateLeadingZeroes64 x) := by
  obtain ⟨upper, lower, rfl⟩ := exists_eq_append 32 32 x
  obtain ⟨hupper, hlower⟩ := halves upper lower
  rw [emulateLeadingZeroes64, hupper, hlower]
  by_cases hzero : upper = 0
  · rw [if_pos hzero, hzero]
    exact (emulateLeadingZeroes32_first lower).append_zero
  · rw [if_neg hzero]
    exact (emulateLeadingZeroes32_first upper).append_left hzero

theorem trailingZeroes32_lowest {x : BitVec 32} (h : x ≠ 0) : LowestBit x (trailingZeroes32 x) :=
  lowestBit_of_firstBit h (emulateLeadingZeroes32_first _)

theorem trailingZeroes64_lowest {x : BitVec 64} (h : x ≠ 0) :
    LowestBit x (trailingZeroes64 x) := by
  obtain ⟨upper, lower, rfl⟩ := exists_eq_append 32 32 x
  obtain ⟨hupper, hlower⟩ := halves upper lower
  rw [trailingZeroes64, hupper, hlower]
  by_cases hzero : lower = 0
  · have hne : upper ≠ 0 := by
      rintro rfl
      rw [hzero] at h
      exact h (by decide)
    rw [if_pos hzero, hzero]
    exact (trailingZeroes32_lowest hne).append_zero
  · rw [if_neg hzero]
    exact (trailingZeroes32_lowest hzero).append_right

end OMR.Compiler.BitManipulator
