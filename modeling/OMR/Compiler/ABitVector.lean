import OMR.Compiler.BitManipulator

/-!
# Bit vectors of CS2

`ABitVector`, for words of 32 and of 64 bits. Bit 0 of a word is its highest one, and the size
is that of whole words. What `ClearLastOneIfThereIsOneInRange` and `LowestZero` find is compared
with the indices of the bits.
-/

namespace OMR.Compiler

open OMR.Lib BitManipulator

/-- `kBitWordSize`; the preprocessor decides about `BITVECTOR_64BIT`. -/
def kBitWordSize (bitvector64bit : Bool) : ℕ := if bitvector64bit then 64 else 32

/-- `BitWord`. -/
abbrev BitWord (b : Bool) := BitVec (kBitWordSize b)

namespace BitWord

/-- `BitManipulator::LeadingZeroes`, which is overloaded. -/
def leadingZeroes : {b : Bool} → BitWord b → ℕ
  | false, word => emulateLeadingZeroes32 word
  | true, word => emulateLeadingZeroes64 word

/-- `BitManipulator::LeadingOnes`. -/
def leadingOnes {b : Bool} (word : BitWord b) : ℕ := leadingZeroes (~~~word : BitWord b)

/-- `BitManipulator::TrailingZeroes`, which is overloaded. -/
def trailingZeroes : {b : Bool} → BitWord b → ℕ
  | false, word => trailingZeroes32 word
  | true, word => trailingZeroes64 word

end BitWord

/-- An `ABitVector` has whole words, and its size has 32 bits. -/
structure ABitVector (b : Bool) where
  fNumBits : ℕ
  fBitWords : List (BitWord b)
  size_eq : fNumBits = kBitWordSize b * fBitWords.length
  size_lt : fNumBits < 2 ^ 32

namespace ABitVector

variable {b : Bool}

/-- `SizeInWords`. -/
def sizeInWords (b : Bool) (numBits : ℕ) : ℕ :=
  (numBits + kBitWordSize b - 1) % 2 ^ 32 / kBitWordSize b

/-- `WordAt`, within the vector. -/
def wordAt (v : ABitVector b) (wordIndex : ℕ) : BitWord b := v.fBitWords.getD wordIndex 0

def valueAt (v : ABitVector b) (bitIndex : ℕ) : Bool :=
  if bitIndex ≥ v.fNumBits then false
  else decide ((v.wordAt (bitIndex / kBitWordSize b) <<< (bitIndex % kBitWordSize b)) >>>
    (kBitWordSize b - 1) ≠ 0)

/-- The loop of `GrowTo` to a power of two. -/
def power2Loop (newBitSize : ℕ) : (fuel power2Size : ℕ) → ℕ
  | 0, power2Size => power2Size
  | fuel + 1, power2Size =>
    if power2Size < newBitSize then power2Loop newBitSize fuel (power2Size * 2) else power2Size

/-- The size that `GrowTo` rounds up to, by default with geometric growth of small vectors. -/
def grownSize (newBitSize : ℕ) : ℕ :=
  if newBitSize < 1024 then power2Loop newBitSize 10 1
  else (newBitSize + 128 * 8 - newBitSize % (128 * 8)) % 2 ^ 32

/-- `GrowTo`; `none` if the size does not have 32 bits any more. -/
def growTo (v : ABitVector b) (newBitSize : ℕ) : Option (ABitVector b) :=
  if newBitSize ≤ v.fNumBits then some v
  else
    let newWordSize := sizeInWords b (grownSize newBitSize)
    if h : v.fBitWords.length ≤ newWordSize ∧ kBitWordSize b * newWordSize < 2 ^ 32 then
      some
        { fNumBits := kBitWordSize b * newWordSize
          fBitWords := v.fBitWords ++ List.replicate (newWordSize - v.fBitWords.length) 0
          size_eq := by
            rw [List.length_append, List.length_replicate, Nat.add_sub_of_le h.1]
          size_lt := h.2 }
    else none

/-- An assignment to a word. -/
def setWordAt (v : ABitVector b) (wordIndex : ℕ) (word : BitWord b) : ABitVector b :=
  { v with
    fBitWords := v.fBitWords.set wordIndex word
    size_eq := by rw [List.length_set, v.size_eq] }

/-- An assignment to `operator[]`. -/
def assign (v : ABitVector b) (index : ℕ) (bitValue : Bool) : Option (ABitVector b) :=
  -- do not grow to set a 0
  if bitValue = false ∧ v.fNumBits < index then some v
  else (v.growTo ((index + 1) % 2 ^ 32)).bind fun v =>
    if index < v.fNumBits then
      let wordIndex := index / kBitWordSize b
      let shiftAmount := kBitWordSize b - index % kBitWordSize b - 1
      let bitMask : BitWord b := BitVec.ofNat _ bitValue.toNat <<< shiftAmount
      let resultWord := v.wordAt wordIndex &&& ~~~((1#_ : BitWord b) <<< shiftAmount)
      some (v.setWordAt wordIndex (resultWord ||| bitMask))
    else none

/-- The loop of `ClearLastOneIfThereIsOneInRange` down to a word that is not zero. -/
def lastWord (v : ABitVector b) (lowWordIndex : ℕ) : (wordIndex : ℕ) → Option ℕ
  | 0 => if 0 ≥ lowWordIndex ∧ v.wordAt 0 ≠ 0 then some 0 else none
  | wordIndex + 1 =>
    if wordIndex + 1 ≥ lowWordIndex then
      if v.wordAt (wordIndex + 1) ≠ 0 then some (wordIndex + 1)
      else v.lastWord lowWordIndex wordIndex
    else none

/-- `ClearLastOneIfThereIsOneInRange`: the index, `foundone`, and the vector that is left. -/
def clearLastOneIfThereIsOneInRange (v : ABitVector b) (low high : ℕ) :
    Option (ℕ × Bool × ABitVector b) :=
  if low < v.fNumBits ∧ high < v.fNumBits then
    match v.lastWord (low / kBitWordSize b) (high / kBitWordSize b) with
    | some wordIndex =>
      let rc := wordIndex * kBitWordSize b + kBitWordSize b -
        BitWord.trailingZeroes (v.wordAt wordIndex) - 1
      (v.assign rc false).map fun v => (rc, true, v)
    | none => some (2 ^ 32 - 1, false, v)
  else none

/-- The loop of `LowestZero` over the full words. -/
def firstNotFull (v : ABitVector b) (wordIndex : ℕ) : (words : ℕ) → ℕ
  | 0 => wordIndex
  | words + 1 =>
    if v.wordAt wordIndex = BitVec.allOnes _ then v.firstNotFull (wordIndex + 1) words
    else wordIndex

def lowestZero (v : ABitVector b) : ℕ :=
  let vectorWordSize := sizeInWords b v.fNumBits
  let wordIndex := v.firstNotFull 0 vectorWordSize
  if wordIndex ≥ vectorWordSize then (v.fNumBits + 1) % 2 ^ 32
  else (wordIndex * kBitWordSize b + BitWord.leadingOnes (v.wordAt wordIndex)) % 2 ^ 32

section Words

variable {v : ABitVector b} {i j : ℕ}

theorem kBitWordSize_pos : 0 < kBitWordSize b := by
  cases b <;> decide

theorem size_add_le (v : ABitVector b) : v.fNumBits + kBitWordSize b ≤ 2 ^ 32 := by
  have hlt := v.size_lt
  rw [v.size_eq] at hlt ⊢
  cases b
  · change 32 * _ < 2 ^ 32 at hlt
    change 32 * _ + 32 ≤ 2 ^ 32
    omega
  · change 64 * _ < 2 ^ 32 at hlt
    change 64 * _ + 64 ≤ 2 ^ 32
    omega

theorem leadingZeroes_first (word : BitWord b) : FirstBit word (BitWord.leadingZeroes word) := by
  cases b with
  | false => exact emulateLeadingZeroes32_first word
  | true => exact emulateLeadingZeroes64_first word

theorem trailingZeroes_lowest {word : BitWord b} (h : word ≠ 0) :
    LowestBit word (BitWord.trailingZeroes word) := by
  cases b with
  | false => exact trailingZeroes32_lowest h
  | true => exact trailingZeroes64_lowest h

theorem sizeInWords_eq (v : ABitVector b) : sizeInWords b v.fNumBits = v.fBitWords.length := by
  have hle := v.size_add_le
  have hpos : 0 < kBitWordSize b := kBitWordSize_pos
  rw [sizeInWords, Nat.mod_eq_of_lt (by omega), v.size_eq, Nat.add_sub_assoc hpos,
    Nat.mul_add_div hpos, Nat.div_eq_of_lt (Nat.sub_lt hpos Nat.one_pos), Nat.add_zero]

/-- A bit of a word, as `ValueAt` reads it. -/
theorem getMsbD_iff {word : BitWord b} (hj : j < kBitWordSize b) :
    (word <<< j) >>> (kBitWordSize b - 1) ≠ 0 ↔ word.getMsbD j = true := by
  have hbit : ∀ m, ((word <<< j) >>> (kBitWordSize b - 1)).getLsbD m =
      (decide (m = 0) && word.getMsbD j) := by
    intro m
    rw [BitVec.getLsbD_ushiftRight, BitVec.getLsbD_shiftLeft, BitVec.getMsbD_eq_getLsbD,
      decide_eq_true hj, Bool.true_and]
    cases m with
    | zero =>
      rw [Nat.add_zero, decide_eq_true (by omega), decide_eq_false (by omega), decide_eq_true rfl]
      rfl
    | succ m =>
      rw [decide_eq_false (by omega), decide_eq_false (Nat.succ_ne_zero m)]
      rfl
  rw [word_ne_zero_iff]
  constructor
  · rintro ⟨m, -, hm⟩
    rw [hbit, Bool.and_eq_true] at hm
    exact hm.2
  · intro hj'
    exact ⟨0, by omega, by rw [hbit, hj']; rfl⟩

theorem lt_size_iff : i < v.fNumBits ↔ i / kBitWordSize b < v.fBitWords.length := by
  rw [v.size_eq, Nat.div_lt_iff_lt_mul kBitWordSize_pos, Nat.mul_comm]

/-- The index of a bit is that of its word and that in the word. -/
theorem valueAt_iff : v.valueAt i = true ↔
    (v.wordAt (i / kBitWordSize b)).getMsbD (i % kBitWordSize b) = true := by
  unfold valueAt
  split_ifs with hi
  · have hword : v.wordAt (i / kBitWordSize b) = 0 := by
      have hlength := not_lt.1 (lt_size_iff.not.1 (not_lt.2 hi))
      rw [wordAt, List.getD_eq_getElem?_getD, List.getElem?_eq_none hlength]
      rfl
    rw [hword]
    simp
  · rw [decide_eq_true_eq, getMsbD_iff (Nat.mod_lt _ kBitWordSize_pos)]

theorem lt_of_valueAt (h : v.valueAt i = true) : i < v.fNumBits := by
  unfold valueAt at h
  split_ifs at h with hi
  exact not_le.1 hi

theorem index_div (k : ℕ) (hj : j < kBitWordSize b) :
    (k * kBitWordSize b + j) / kBitWordSize b = k := by
  rw [Nat.mul_comm, Nat.mul_add_div kBitWordSize_pos, Nat.div_eq_of_lt hj, Nat.add_zero]

theorem valueAt_index (v : ABitVector b) (k : ℕ) (hj : j < kBitWordSize b) :
    v.valueAt (k * kBitWordSize b + j) = true ↔ (v.wordAt k).getMsbD j = true := by
  rw [valueAt_iff, index_div k hj, Nat.mul_comm, Nat.mul_add_mod, Nat.mod_eq_of_lt hj]

theorem wordAt_ne_zero_iff (v : ABitVector b) (k : ℕ) :
    v.wordAt k ≠ 0 ↔ ∃ i, i / kBitWordSize b = k ∧ v.valueAt i = true := by
  constructor
  · intro hne
    obtain ⟨m, hm, hbit⟩ := word_ne_zero_iff.1 hne
    have hj : kBitWordSize b - 1 - m < kBitWordSize b := by omega
    have heq : kBitWordSize b - 1 - (kBitWordSize b - 1 - m) = m := by omega
    refine ⟨k * kBitWordSize b + (kBitWordSize b - 1 - m), index_div k hj, ?_⟩
    rw [valueAt_index v k hj, BitVec.getMsbD_eq_getLsbD, decide_eq_true hj, heq, hbit]
    rfl
  · rintro ⟨i, rfl, hi⟩ hzero
    rw [valueAt_iff, hzero] at hi
    simp at hi

end Words

section Range

variable {v : ABitVector b} {low high i k : ℕ}

/-- The loop ends at the last word in the range that is not zero, if there is one. -/
theorem lastWord_spec (v : ABitVector b) (low high : ℕ) :
    (∀ k, v.lastWord low high = some k →
      low ≤ k ∧ k ≤ high ∧ v.wordAt k ≠ 0 ∧ ∀ j, k < j → j ≤ high → v.wordAt j = 0) ∧
    (v.lastWord low high = none → ∀ j, low ≤ j → j ≤ high → v.wordAt j = 0) := by
  induction high with
  | zero =>
    rw [lastWord]
    split_ifs with h
    · refine ⟨?_, by simp⟩
      rintro k hk
      obtain rfl := Option.some_inj.1 hk
      exact ⟨h.1, le_rfl, h.2, fun j hj hle => absurd hj hle.not_gt⟩
    · refine ⟨by simp, fun _ j hlow hle => ?_⟩
      obtain rfl := Nat.le_zero.1 hle
      by_contra hne
      exact h ⟨hlow, hne⟩
  | succ high ih =>
    rw [lastWord]
    split_ifs with hlow hne
    · refine ⟨?_, by simp⟩
      rintro k hk
      obtain rfl := Option.some_inj.1 hk
      exact ⟨hlow, le_rfl, hne, fun j hj hle => absurd hj hle.not_gt⟩
    · rw [not_not] at hne
      refine ⟨fun k hk => ?_, fun hnone j hj hle => ?_⟩
      · obtain ⟨hlowk, hkhigh, hnek, hbehind⟩ := ih.1 k hk
        refine ⟨hlowk, Nat.le_succ_of_le hkhigh, hnek, fun j hj hle => ?_⟩
        rcases Nat.le_succ_iff.1 hle with hle | rfl
        · exact hbehind j hj hle
        · exact hne
      · rcases Nat.le_succ_iff.1 hle with hle | rfl
        · exact ih.2 hnone j hj hle
        · exact hne
    · exact ⟨by simp, fun _ j hj hle => absurd (hj.trans hle) hlow⟩

/-- The indices of bits in the words of a range. -/
def inWords (v : ABitVector b) (low high : ℕ) : Set ℕ :=
  {i | v.valueAt i = true ∧ low / kBitWordSize b ≤ i / kBitWordSize b ∧
    i / kBitWordSize b ≤ high / kBitWordSize b}

/-- The last bit of the last word that is not zero. -/
theorem isGreatest_lastWord
    (h : v.lastWord (low / kBitWordSize b) (high / kBitWordSize b) = some k) :
    IsGreatest (v.inWords low high) (k * kBitWordSize b + kBitWordSize b -
      BitWord.trailingZeroes (v.wordAt k) - 1) := by
  obtain ⟨hlow, hhigh, hne, hbehind⟩ := (v.lastWord_spec _ _).1 k h
  have hlowest := trailingZeroes_lowest hne
  obtain ⟨hset, hclear⟩ := hlowest.msb
  have hlt := hlowest.lt
  revert hset hclear hlt
  generalize BitWord.trailingZeroes (v.wordAt k) = t
  intro hset hclear hlt
  have hj : kBitWordSize b - 1 - t < kBitWordSize b := by omega
  have hrc : k * kBitWordSize b + kBitWordSize b - t - 1 =
      k * kBitWordSize b + (kBitWordSize b - 1 - t) := by omega
  rw [hrc]
  refine ⟨⟨(valueAt_index v k hj).2 hset, ?_, ?_⟩, ?_⟩
  · rwa [index_div k hj]
  · rwa [index_div k hj]
  · rintro i ⟨hi, hilow, hihigh⟩
    have hword : i / kBitWordSize b ≤ k := by
      by_contra hgt
      have hzero := hbehind _ (not_le.1 hgt) hihigh
      exact (wordAt_ne_zero_iff v _).2 ⟨i, rfl, hi⟩ hzero
    have hdiv := Nat.div_add_mod i (kBitWordSize b)
    have hmod := Nat.mod_lt i (kBitWordSize_pos (b := b))
    rcases Nat.lt_or_eq_of_le hword with hlt' | heq
    · have hmul := Nat.mul_le_mul_left (kBitWordSize b) hlt'
      rw [Nat.mul_succ] at hmul
      rw [Nat.mul_comm k]
      omega
    · have hle : i % kBitWordSize b ≤ kBitWordSize b - 1 - t := by
        by_contra hgt
        have hfalse := hclear _ (not_le.1 hgt)
        rw [valueAt_iff, heq, hfalse] at hi
        exact Bool.noConfusion hi
      rw [heq] at hdiv
      rw [Nat.mul_comm k]
      omega

theorem inWords_eq_empty
    (h : v.lastWord (low / kBitWordSize b) (high / kBitWordSize b) = none) :
    v.inWords low high = ∅ := by
  ext i
  simp only [Set.mem_empty_iff_false, iff_false]
  rintro ⟨hi, hlow, hhigh⟩
  exact (wordAt_ne_zero_iff v _).2 ⟨i, rfl, hi⟩ ((v.lastWord_spec _ _).2 h _ hlow hhigh)

theorem wordAt_setWordAt (v : ABitVector b) {word : BitWord b} (hk : k < v.fBitWords.length)
    (j : ℕ) : (v.setWordAt k word).wordAt j = if j = k then word else v.wordAt j := by
  rw [wordAt, wordAt, setWordAt, List.getD_eq_getElem?_getD, List.getD_eq_getElem?_getD,
    List.getElem?_set]
  split_ifs with heq hj hj
  · rfl
  · exact absurd heq.symm hj
  · exact absurd hj.symm heq
  · rfl

/-- A word without one of its bits, counted from the highest one. -/
theorem getMsbD_and_not_shiftLeft {word : BitWord b} {m n : ℕ} (hm : m < kBitWordSize b)
    (hn : n < kBitWordSize b) :
    (word &&& ~~~((1#_ : BitWord b) <<< (kBitWordSize b - n - 1))).getMsbD m =
      (word.getMsbD m && decide (m ≠ n)) := by
  rw [BitVec.getMsbD_eq_getLsbD, BitVec.getMsbD_eq_getLsbD, BitVec.getLsbD_and, BitVec.getLsbD_not,
    getLsbD_one_shiftLeft (by omega), decide_eq_true hm, Bool.true_and, Bool.true_and,
    decide_eq_true (show kBitWordSize b - 1 - m < kBitWordSize b by omega), Bool.true_and]
  refine congrArg (word.getLsbD _ && ·) ?_
  rw [Bool.eq_iff_iff]
  simp only [Bool.not_eq_true', decide_eq_false_iff_not, decide_eq_true_eq]
  omega

/-- Clearing a bit within the vector changes no other one. -/
theorem assign_false (hi : i < v.fNumBits) :
    ∃ v', v.assign i false = some v' ∧ ∀ j, v'.valueAt j = (v.valueAt j && decide (j ≠ i)) := by
  have hsize := v.size_lt
  have hmod : (i + 1) % 2 ^ 32 = i + 1 := Nat.mod_eq_of_lt (by omega)
  have hgrow : v.growTo ((i + 1) % 2 ^ 32) = some v := by
    rw [hmod]
    exact if_pos hi
  have hzero : ∀ shift : ℕ, (BitVec.ofNat (kBitWordSize b) (false.toNat)) <<< shift = 0 := by
    intro shift
    simp
  have hor : ∀ x : BitWord b, x ||| 0 = x := fun x => BitVec.or_zero
  refine ⟨v.setWordAt (i / kBitWordSize b) (v.wordAt (i / kBitWordSize b) &&&
    ~~~((1#_ : BitWord b) <<< (kBitWordSize b - i % kBitWordSize b - 1))), ?_, fun j => ?_⟩
  · rw [assign, if_neg (fun h => absurd h.2 (by omega)), hgrow, Option.bind_some, if_pos hi]
    dsimp only
    rw [hzero, hor]
  · have hdiv := Nat.div_add_mod i (kBitWordSize b)
    have hdiv' := Nat.div_add_mod j (kBitWordSize b)
    rw [Bool.eq_iff_iff, Bool.and_eq_true, valueAt_iff, valueAt_iff,
      wordAt_setWordAt v (lt_size_iff.1 hi)]
    by_cases hword : j / kBitWordSize b = i / kBitWordSize b
    · rw [if_pos hword, getMsbD_and_not_shiftLeft (Nat.mod_lt _ kBitWordSize_pos)
        (Nat.mod_lt _ kBitWordSize_pos), Bool.and_eq_true, hword, decide_eq_true_eq,
        decide_eq_true_eq]
      refine and_congr_right fun _ => not_congr ⟨fun heq => ?_, fun heq => by rw [heq]⟩
      rw [← hdiv, ← hdiv', hword, heq]
    · rw [if_neg hword, decide_eq_true_eq]
      exact ⟨fun h => ⟨h, fun heq => hword (by rw [heq])⟩, fun h => h.1⟩

/-- What `ClearLastOneIfThereIsOneInRange` clears is the last bit in the words of the range. -/
theorem clearLast_spec (hlow : low < v.fNumBits) (hhigh : high < v.fNumBits) :
    (∃ rc v', v.clearLastOneIfThereIsOneInRange low high = some (rc, true, v') ∧
      IsGreatest (v.inWords low high) rc ∧
      ∀ j, v'.valueAt j = (v.valueAt j && decide (j ≠ rc))) ∨
    ∃ rc, v.clearLastOneIfThereIsOneInRange low high = some (rc, false, v) ∧
      v.inWords low high = ∅ := by
  unfold clearLastOneIfThereIsOneInRange
  rw [if_pos ⟨hlow, hhigh⟩]
  cases hlast : v.lastWord (low / kBitWordSize b) (high / kBitWordSize b) with
  | none => exact .inr ⟨2 ^ 32 - 1, rfl, inWords_eq_empty hlast⟩
  | some k =>
    have hgreatest := isGreatest_lastWord hlast
    obtain ⟨v', hassign, hvalue⟩ := assign_false (lt_of_valueAt hgreatest.1.1)
    refine .inl ⟨_, v', ?_, hgreatest, hvalue⟩
    dsimp only
    rw [hassign]
    rfl

end Range

section LowestZero

variable {v : ABitVector b}

theorem firstNotFull_spec (v : ABitVector b) (words k : ℕ) :
    k ≤ v.firstNotFull k words ∧ v.firstNotFull k words ≤ k + words ∧
      (∀ j, k ≤ j → j < v.firstNotFull k words → v.wordAt j = BitVec.allOnes _) ∧
      (v.firstNotFull k words < k + words →
        v.wordAt (v.firstNotFull k words) ≠ BitVec.allOnes _) := by
  induction words generalizing k with
  | zero => exact ⟨le_rfl, le_rfl, fun j hj hlt => absurd hj hlt.not_ge, fun h => absurd h (lt_irrefl _)⟩
  | succ words ih =>
    rw [firstNotFull]
    split_ifs with hfull
    · obtain ⟨hge, hle, hbefore, hend⟩ := ih (k + 1)
      refine ⟨by omega, by omega, fun j hj hlt => ?_, fun hlt => hend (by omega)⟩
      rcases Nat.lt_or_eq_of_le hj with hj | rfl
      · exact hbefore j hj hlt
      · exact hfull
    · exact ⟨le_rfl, by omega, fun j hj hlt => absurd hj hlt.not_ge, fun _ => hfull⟩

theorem valueAt_of_full {i : ℕ} (h : v.wordAt (i / kBitWordSize b) = BitVec.allOnes _) :
    v.valueAt i = true := by
  rw [valueAt_iff, h, BitVec.getMsbD_allOnes, decide_eq_true_eq]
  exact Nat.mod_lt _ kBitWordSize_pos

/-- In a word that is not full the first bit of its complement is not set. -/
theorem leadingOnes_spec {word : BitWord b} (h : word ≠ BitVec.allOnes _) :
    BitWord.leadingOnes word < kBitWordSize b ∧
      word.getMsbD (BitWord.leadingOnes word) = false ∧
      ∀ j < BitWord.leadingOnes word, word.getMsbD j = true := by
  have hfirst : FirstBit (~~~word) (BitWord.leadingOnes word) := leadingZeroes_first _
  have hnot : ∀ j < kBitWordSize b, (~~~word).getMsbD j = !word.getMsbD j := by
    intro j hj
    rw [BitVec.getMsbD_not, decide_eq_true hj, Bool.true_and]
  have hlt : BitWord.leadingOnes word < kBitWordSize b := by
    refine lt_of_le_of_ne hfirst.le fun heq => h (BitVec.eq_of_getMsbD_eq fun j hj => ?_)
    have hclear := hfirst.clear j (by rw [heq]; exact hj)
    rw [hnot j hj, Bool.not_eq_false'] at hclear
    rw [hclear, BitVec.getMsbD_allOnes, decide_eq_true hj]
  have hset := hfirst.set hlt
  rw [hnot _ hlt, Bool.not_eq_true'] at hset
  refine ⟨hlt, hset, fun j hj => ?_⟩
  have hclear := hfirst.clear j hj
  rwa [hnot j (hj.trans hlt), Bool.not_eq_false'] at hclear

/-- `LowestZero` is right as long as there is a zero in the words of the vector. -/
theorem lowestZero_iff (v : ABitVector b) :
    IsLeast {i | v.valueAt i = false} v.lowestZero ↔ ∃ i < v.fNumBits, v.valueAt i = false := by
  have hsize := v.size_add_le
  have hbeyond : v.valueAt v.fNumBits = false := if_pos le_rfl
  have htwo : 2 ≤ kBitWordSize b := by cases b <;> decide
  obtain ⟨-, hle, hfull, hend⟩ := v.firstNotFull_spec v.fBitWords.length 0
  rw [Nat.zero_add] at hle hend
  unfold lowestZero
  rw [sizeInWords_eq]
  dsimp only
  revert hle hfull hend
  generalize v.firstNotFull 0 v.fBitWords.length = r
  intro hle hfull hend
  by_cases hr : r ≥ v.fBitWords.length
  · have hall : ∀ i < v.fNumBits, v.valueAt i = true := fun i hi =>
      valueAt_of_full (hfull _ (Nat.zero_le _) ((lt_size_iff.1 hi).trans_le hr))
    rw [if_pos hr, Nat.mod_eq_of_lt (by omega)]
    refine iff_of_false (fun h => ?_) fun ⟨i, hi, hzero⟩ => ?_
    · exact absurd (h.2 hbeyond) (Nat.not_succ_le_self _)
    · rw [hall i hi] at hzero
      exact Bool.noConfusion hzero
  · obtain ⟨hlt, hzero, hones⟩ := leadingOnes_spec (hend (not_le.1 hr))
    rw [if_neg hr]
    revert hlt hzero hones
    generalize BitWord.leadingOnes (v.wordAt r) = n
    intro hlt hzero hones
    have hindex : v.valueAt (r * kBitWordSize b + n) = false := by
      rw [← Bool.not_eq_true, valueAt_index v r hlt, hzero]
      exact Bool.false_ne_true
    have hwithin : r * kBitWordSize b + n < v.fNumBits := by
      rw [lt_size_iff, index_div r hlt]
      exact not_le.1 hr
    rw [Nat.mod_eq_of_lt (by omega)]
    refine iff_of_true ⟨hindex, fun i hi => ?_⟩ ⟨_, hwithin, hindex⟩
    by_contra hbefore
    have hdiv := Nat.div_add_mod i (kBitWordSize b)
    have hmod := Nat.mod_lt i (kBitWordSize_pos (b := b))
    have hvalue : v.valueAt i = true := by
      have hword : i / kBitWordSize b ≤ r := by
        rw [← index_div r hlt]
        exact Nat.div_le_div_right (not_le.1 hbefore).le
      rcases Nat.lt_or_eq_of_le hword with hlt' | heq
      · exact valueAt_of_full (hfull _ (Nat.zero_le _) hlt')
      · rw [valueAt_iff, heq]
        rw [heq, Nat.mul_comm] at hdiv
        exact hones _ (by omega)
    have hfalse : v.valueAt i = false := hi
    rw [hvalue] at hfalse
    exact Bool.noConfusion hfalse

end LowestZero

/-! ### The ranges that are searched right -/

/-- The last bit in a range is cleared, and its index returned, if there is one. -/
def ClearsLast (v : ABitVector b) (low high : ℕ) : Prop :=
  ∃ rc found v', v.clearLastOneIfThereIsOneInRange low high = some (rc, found, v') ∧
    (found = true ↔ ∃ i, low ≤ i ∧ i ≤ high ∧ v.valueAt i = true) ∧
    (found = true → IsGreatest {i | low ≤ i ∧ i ≤ high ∧ v.valueAt i = true} rc ∧
      ∀ i, v'.valueAt i = (v.valueAt i && decide (i ≠ rc))) ∧
    (found = false → ∀ i, v'.valueAt i = v.valueAt i)

/-- No bit behind the range in its last word, and none in front of it in its first word unless
there is one in the range. -/
def Separated (v : ABitVector b) (low high : ℕ) : Prop :=
  (∀ i, v.valueAt i = true → i / kBitWordSize b = high / kBitWordSize b → i ≤ high) ∧
    ∀ i, v.valueAt i = true → i / kBitWordSize b = low / kBitWordSize b → i < low →
      ∃ j, low ≤ j ∧ j ≤ high ∧ v.valueAt j = true

theorem mem_inWords {v : ABitVector b} {low high i : ℕ} (hlow : low ≤ i) (hhigh : i ≤ high)
    (hi : v.valueAt i = true) : i ∈ v.inWords low high :=
  ⟨hi, Nat.div_le_div_right hlow, Nat.div_le_div_right hhigh⟩

/-- The last bit in the words of the range is in the range. -/
theorem separated_iff {v : ABitVector b} {low high rc : ℕ} (hle : low ≤ high)
    (h : IsGreatest (v.inWords low high) rc) :
    v.Separated low high ↔ low ≤ rc ∧ rc ≤ high := by
  obtain ⟨⟨hrc, hlowWord, hhighWord⟩, hgreatest⟩ := h
  constructor
  · rintro ⟨hbehind, hfront⟩
    refine ⟨?_, ?_⟩
    · by_contra hlt
      have hword := Nat.le_antisymm (Nat.div_le_div_right (not_le.1 hlt).le) hlowWord
      obtain ⟨j, hlow, hhigh, hj⟩ := hfront rc hrc hword (not_le.1 hlt)
      exact hlt (hlow.trans (hgreatest (mem_inWords hlow hhigh hj)))
    · rcases Nat.lt_or_eq_of_le hhighWord with hlt | heq
      · exact (Nat.lt_of_div_lt_div hlt).le
      · exact hbehind rc hrc heq
  · rintro ⟨hlow, hhigh⟩
    refine ⟨fun i hi heq => ?_, fun _ _ _ _ => ⟨rc, hlow, hhigh, hrc⟩⟩
    exact (hgreatest ⟨hi, heq ▸ Nat.div_le_div_right hle, heq.le⟩).trans hhigh

/-- The search over whole words is right in a separated range, and only there. -/
theorem clearsLast_iff {v : ABitVector b} {low high : ℕ} (hle : low ≤ high)
    (hhigh : high < v.fNumBits) : v.ClearsLast low high ↔ v.Separated low high := by
  rcases clearLast_spec (hle.trans_lt hhigh) hhigh with
    ⟨rc, v', hclear, hgreatest, hvalue⟩ | ⟨rc, hclear, hempty⟩
  · rw [separated_iff hle hgreatest]
    constructor
    · rintro ⟨rc', found, v'', hclear', -, hfound, -⟩
      obtain ⟨rfl, rfl, rfl⟩ : rc = rc' ∧ true = found ∧ v' = v'' := by
        simpa using hclear.symm.trans hclear'
      obtain ⟨⟨⟨hlow, hhigh, -⟩, -⟩, -⟩ := hfound rfl
      exact ⟨hlow, hhigh⟩
    · rintro ⟨hlow, hhigh⟩
      refine ⟨rc, true, v', hclear, iff_of_true rfl ⟨rc, hlow, hhigh, hgreatest.1.1⟩,
        fun _ => ⟨⟨⟨hlow, hhigh, hgreatest.1.1⟩, ?_⟩, hvalue⟩, fun h => Bool.noConfusion h⟩
      rintro i ⟨hlow, hhigh, hi⟩
      exact hgreatest.2 (mem_inWords hlow hhigh hi)
  · have hnone : ∀ i, low / kBitWordSize b ≤ i / kBitWordSize b →
        i / kBitWordSize b ≤ high / kBitWordSize b → ¬ v.valueAt i = true :=
      fun i hlow hhigh hi => Set.notMem_empty i (hempty ▸ ⟨hi, hlow, hhigh⟩)
    have hwords : low / kBitWordSize b ≤ high / kBitWordSize b := Nat.div_le_div_right hle
    refine iff_of_true ⟨rc, false, v, hclear, iff_of_false Bool.false_ne_true ?_,
      fun h => Bool.noConfusion h, fun _ _ => rfl⟩ ⟨fun i hi heq => ?_, fun i hi heq _ => ?_⟩
    · rintro ⟨i, hlow, hhigh, hi⟩
      exact hnone i (Nat.div_le_div_right hlow) (Nat.div_le_div_right hhigh) hi
    · exact absurd hi (hnone i (heq ▸ hwords) heq.le)
    · exact absurd hi (hnone i heq.ge (heq ▸ hwords))

/-- Range queries are right exactly if the words of the range have no other bits that count, and
not every bit of the vector is set. -/
theorem rangeQueries_iff (v : ABitVector b) (low high : ℕ) :
    ((low ≤ high → high < v.fNumBits → v.ClearsLast low high) ∧
      IsLeast {i | v.valueAt i = false} v.lowestZero) ↔
    (low ≤ high → high < v.fNumBits → v.Separated low high) ∧
      ∃ i < v.fNumBits, v.valueAt i = false :=
  and_congr (forall_congr' fun hle => forall_congr' fun hhigh => clearsLast_iff hle hhigh)
    (lowestZero_iff v)

/-- A vector of one word. -/
def oneWord (word : BitVec 32) : ABitVector false where
  fNumBits := 32
  fBitWords := [word]
  size_eq := rfl
  size_lt := by decide

/-- With the only bit 31, a search from 0 to 15 clears it. In a full word bit 33 is said to be the
lowest zero. -/
theorem rangeQueries_fails :
    ¬ (oneWord 1).ClearsLast 0 15 ∧
      ¬ IsLeast {i | (oneWord (BitVec.allOnes 32)).valueAt i = false}
        (oneWord (BitVec.allOnes 32)).lowestZero := by
  refine ⟨fun h => ?_, fun h => ?_⟩
  · have hseparated := (clearsLast_iff (by decide) (by decide)).1 h
    exact absurd (hseparated.1 31 (by decide) (by decide)) (by decide)
  · obtain ⟨i, hi, hzero⟩ := (lowestZero_iff _).1 h
    have hall : ∀ i < 32, (oneWord (BitVec.allOnes 32)).valueAt i = true := by decide
    exact absurd (hall i hi) (by rw [hzero]; exact Bool.false_ne_true)

end ABitVector

end OMR.Compiler
