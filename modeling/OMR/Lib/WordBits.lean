import Mathlib.Tactic
import Mathlib.Algebra.BigOperators.Intervals
import Mathlib.Data.BitVec

/-!
# The bits of machine words

Words with one bit and words with an interval of bits, which machine code computes
by shifts and subtractions; words as fields side by side; and the number of bits of a
word, which it adds up byte by byte.
-/

namespace OMR.Lib

variable {v w : ℕ}

/-- A word is not zero when it has a bit. -/
theorem word_ne_zero_iff {c : BitVec w} : c ≠ 0 ↔ ∃ i < w, c.getLsbD i = true := by
  constructor
  · intro hne
    by_contra hnone
    refine hne (BitVec.eq_of_getLsbD_eq fun i hi => ?_)
    rw [BitVec.ofNat_eq_ofNat, BitVec.getLsbD_zero]
    exact Bool.eq_false_iff.2 fun hbit => hnone ⟨i, hi, hbit⟩
  · rintro ⟨i, -, hbit⟩ rfl
    simp at hbit

/-- The word with the one bit `k`. -/
theorem getLsbD_one_shiftLeft {k i : ℕ} (hi : i < w) :
    (1#w <<< k).getLsbD i = decide (i = k) := by
  rw [BitVec.getLsbD_shiftLeft, BitVec.getLsbD_one, Bool.eq_iff_iff]
  simp only [Bool.and_eq_true, decide_eq_true_eq, Bool.not_eq_true', decide_eq_false_iff_not]
  omega

theorem toNat_one_shiftLeft {k : ℕ} (hk : k < w) : (1#w <<< k).toNat = 2 ^ k := by
  have hw : 0 < w := by omega
  rw [BitVec.toNat_shiftLeft, BitVec.toNat_ofNat, Nat.mod_eq_of_lt (Nat.one_lt_two_pow hw.ne'),
    Nat.shiftLeft_eq, one_mul, Nat.mod_eq_of_lt (Nat.pow_lt_pow_right (by decide) hk)]

theorem one_shiftLeft_ushiftRight_one {k : ℕ} (hk : k + 1 < w) :
    (1#w <<< (k + 1)) >>> 1 = 1#w <<< k := by
  rw [← BitVec.toNat_inj, BitVec.toNat_ushiftRight, toNat_one_shiftLeft hk,
    toNat_one_shiftLeft (by omega), Nat.shiftRight_eq_div_pow, pow_one, pow_succ,
    Nat.mul_div_cancel _ Nat.two_pos]

theorem one_shiftLeft_add_self {k : ℕ} (hk : k + 1 < w) :
    1#w <<< k + 1#w <<< k = 1#w <<< (k + 1) := by
  have hpow : 2 ^ k + 2 ^ k = 2 ^ (k + 1) := by ring
  rw [← BitVec.toNat_inj, BitVec.toNat_add, toNat_one_shiftLeft hk,
    toNat_one_shiftLeft (by omega), hpow,
    Nat.mod_eq_of_lt (Nat.pow_lt_pow_right (by decide) hk)]

/-- The bits from `m` to `n`, from the two words with one bit each. -/
theorem getLsbD_interval {m n i : ℕ} (hmn : m ≤ n) (hn : n < w) :
    ((1#w <<< n - 1#w) <<< 1 - 1#w <<< m + 2#w).getLsbD i = decide (m ≤ i ∧ i ≤ n) := by
  have hpow : 2 ^ m ≤ 2 ^ n := Nat.pow_le_pow_right (by decide) hmn
  have hlt : 2 ^ (n + 1) ≤ 2 ^ w := Nat.pow_le_pow_right (by decide) hn
  have hm : 0 < 2 ^ m := Nat.two_pow_pos m
  have hsucc : 2 ^ (n + 1) = 2 * 2 ^ n := by ring
  have hval : (1#w <<< n - 1#w) <<< 1 - 1#w <<< m + 2#w = BitVec.ofNat w (2 ^ (n + 1) - 2 ^ m) := by
    have hn' : 1#w <<< n = BitVec.ofNat w (2 ^ n) := by
      rw [← BitVec.toNat_inj, toNat_one_shiftLeft hn, BitVec.toNat_ofNat,
        Nat.mod_eq_of_lt (by omega)]
    have hm' : 1#w <<< m = BitVec.ofNat w (2 ^ m) := by
      rw [← BitVec.toNat_inj, toNat_one_shiftLeft (by omega), BitVec.toNat_ofNat,
        Nat.mod_eq_of_lt (by omega)]
    have hdouble : ∀ x : BitVec w, x <<< 1 = x + x := by
      intro x
      rw [← BitVec.toNat_inj, BitVec.toNat_shiftLeft, BitVec.toNat_add, Nat.shiftLeft_eq, pow_one,
        mul_two]
    have hsub : BitVec.ofNat w (2 ^ (n + 1) - 2 ^ m) =
        BitVec.ofNat w (2 ^ n) + BitVec.ofNat w (2 ^ n) - BitVec.ofNat w (2 ^ m) := by
      rw [BitVec.eq_sub_iff_add_eq, ← BitVec.ofNat_add, ← BitVec.ofNat_add]
      congr 1
      omega
    have htwo : (2#w) = 1#w + 1#w := by rw [← BitVec.ofNat_add]
    rw [hdouble, hn', hm', hsub, htwo]
    ring
  rw [hval, BitVec.getLsbD_ofNat]
  have htest : (2 ^ (n + 1) - 2 ^ m).testBit i = decide (m ≤ i ∧ i ≤ n) := by
    have hrw : 2 ^ (n + 1) - 2 ^ m = 2 ^ (n + 1) - ((2 ^ m - 1) + 1) := by omega
    rw [hrw, Nat.testBit_two_pow_sub_succ (by omega), Nat.testBit_two_pow_sub_one, Bool.eq_iff_iff]
    simp only [Bool.and_eq_true, decide_eq_true_eq, Bool.not_eq_true', decide_eq_false_iff_not]
    omega
  rw [htest, Bool.eq_iff_iff]
  simp only [Bool.and_eq_true, decide_eq_true_eq]
  omega

/-- A word is its high bits followed by its low ones. -/
theorem exists_eq_append (v w : ℕ) (x : BitVec (v + w)) :
    ∃ (a : BitVec v) (b : BitVec w), x = a ++ b :=
  ⟨x.extractLsb' w v, x.extractLsb' 0 w, BitVec.extractLsb'_append_extractLsb'.symm⟩

theorem append_inj {v w : ℕ} {a c : BitVec v} {b d : BitVec w} :
    a ++ b = c ++ d ↔ a = c ∧ b = d := by
  constructor
  · intro heq
    have hlow := congrArg (BitVec.extractLsb' 0 w) heq
    have hhigh := congrArg (BitVec.extractLsb' w v) heq
    simp only [BitVec.extractLsb'_append_eq_right, BitVec.extractLsb'_append_eq_left] at hlow hhigh
    exact ⟨hhigh, hlow⟩
  · rintro ⟨rfl, rfl⟩
    rfl

/-- The number of bits of a word. -/
def popCount (c : BitVec w) : ℕ := ∑ i ∈ Finset.range w, (c.getLsbD i).toNat

/-- A byte of a word. -/
def byteOf (c : BitVec w) (k : ℕ) : BitVec 8 := c.extractLsb' (8 * k) 8

/-- The bits of a word are counted byte by byte. -/
theorem popCount_eq_sum_bytes (c : BitVec w) {bytes : ℕ} (h : w = 8 * bytes) :
    popCount c = ∑ k ∈ Finset.range bytes, popCount (byteOf c k) := by
  have hsum : ∀ b, ∑ i ∈ Finset.range (8 * b), (c.getLsbD i).toNat =
      ∑ k ∈ Finset.range b, popCount (byteOf c k) := by
    intro b
    induction b with
    | zero => rfl
    | succ b ih =>
      have hbyte : popCount (byteOf c b) =
          ∑ j ∈ Finset.range 8, (c.getLsbD (8 * b + j)).toNat := by
        refine Finset.sum_congr rfl fun j hj => ?_
        rw [byteOf, BitVec.getLsbD_extractLsb', decide_eq_true (Finset.mem_range.1 hj),
          Bool.true_and]
      rw [Nat.mul_succ, Finset.sum_range_add, ih, ← hbyte, ← Finset.sum_range_succ]
  rw [popCount, ← hsum bytes, ← h]

theorem popCount_eq_card (c : BitVec w) :
    popCount c = ((Finset.range w).filter fun i => c.getLsbD i = true).card := by
  rw [popCount, Finset.card_filter]
  refine Finset.sum_congr rfl fun i _ => ?_
  cases c.getLsbD i <;> rfl

/-- The word with the bits below `n`. -/
theorem getLsbD_one_shiftLeft_sub_one {n i : ℕ} (hn : n < w) :
    (1#w <<< n - 1#w).getLsbD i = decide (i < n) := by
  have hpow : 2 ^ n < 2 ^ w := Nat.pow_lt_pow_right (by decide) hn
  have hval : 1#w <<< n - 1#w = BitVec.ofNat w (2 ^ n - 1) := by
    have hone : (1#w).toNat = 1 := by
      rw [BitVec.toNat_ofNat, Nat.mod_eq_of_lt (Nat.one_lt_two_pow (by omega))]
    have hle : 1#w ≤ 1#w <<< n := by
      rw [BitVec.le_def, toNat_one_shiftLeft hn, hone]
      exact Nat.one_le_two_pow
    rw [← BitVec.toNat_inj, BitVec.toNat_sub_of_le hle, toNat_one_shiftLeft hn, hone,
      BitVec.toNat_ofNat, Nat.mod_eq_of_lt (by omega)]
  rw [hval, BitVec.getLsbD_ofNat, Nat.testBit_two_pow_sub_one]
  rw [Bool.eq_iff_iff]
  simp only [Bool.and_eq_true, decide_eq_true_eq]
  omega

/-- Subtracting 1 sets the bits below the lowest bit instead of it. -/
theorem getLsbD_sub_one {c : BitVec w} (h : c ≠ 0) (i : ℕ) :
    (c - 1#w).getLsbD i =
      if i ≤ c.ctz.toNat then decide (i < c.ctz.toNat) else c.getLsbD i := by
  have hset := BitVec.getLsbD_true_ctz_of_ne_zero h
  have hunset : ∀ j, j < c.ctz.toNat → c.getLsbD j = false :=
    fun j hj => BitVec.getLsbD_false_of_lt_ctz hj
  revert hset hunset
  generalize c.ctz.toNat = t
  intro hset hunset
  have hw : t < w := BitVec.lt_of_getLsbD hset
  have hpow : 2 ^ t < 2 ^ (t + 1) := Nat.pow_lt_pow_right (by decide) (Nat.lt_succ_self t)
  -- the number is an odd multiple of the power of two of its lowest bit
  have hsplit : c.toNat = 2 ^ (t + 1) * (c.toNat / 2 ^ (t + 1)) + 2 ^ t := by
    refine Nat.eq_of_testBit_eq fun j => ?_
    rw [Nat.testBit_two_pow_mul_add _ hpow]
    split
    next hj =>
      rw [Nat.testBit_two_pow]
      rcases Nat.lt_or_ge j t with hlt | hge
      · rw [decide_eq_false (by omega)]
        exact hunset j hlt
      · obtain rfl : j = t := by omega
        rw [decide_eq_true rfl]
        exact hset
    next hj =>
      rw [Nat.testBit_div_two_pow, Nat.sub_add_cancel (by omega)]
  have hpos : 1 ≤ c.toNat := by
    have := Nat.two_pow_pos t
    omega
  have hone : (1#w).toNat = 1 := by
    rw [BitVec.toNat_ofNat, Nat.mod_eq_of_lt (Nat.one_lt_two_pow (by omega))]
  have hsub : (c - 1#w).toNat = 2 ^ (t + 1) * (c.toNat / 2 ^ (t + 1)) + (2 ^ t - 1) := by
    have hle : 1#w ≤ c := by rw [BitVec.le_def, hone]; exact hpos
    rw [BitVec.toNat_sub_of_le hle, hone]
    have := Nat.two_pow_pos t
    omega
  rw [BitVec.getLsbD, hsub, Nat.testBit_two_pow_mul_add _ (by omega)]
  by_cases hi : i < t + 1
  · rw [if_pos hi, if_pos (Nat.le_of_lt_succ hi), Nat.testBit_two_pow_sub_one]
  · rw [if_neg hi, if_neg (fun hle => hi (Nat.lt_succ_of_le hle)), Nat.testBit_div_two_pow,
      Nat.sub_add_cancel (by omega)]
    rfl

/-- `x & (x - 1)` is the word without its lowest bit. -/
theorem getLsbD_and_sub_one {c : BitVec w} (h : c ≠ 0) (i : ℕ) :
    (c &&& (c - 1#w)).getLsbD i = (c.getLsbD i && decide (i ≠ c.ctz.toNat)) := by
  rw [BitVec.getLsbD_and, getLsbD_sub_one h]
  rcases Nat.lt_trichotomy i c.ctz.toNat with hlt | heq | hgt
  · rw [BitVec.getLsbD_false_of_lt_ctz hlt, Bool.false_and, Bool.false_and]
  · rw [if_pos heq.le, decide_eq_false heq.not_lt, decide_eq_false (not_not.2 heq)]
  · rw [if_neg hgt.not_ge, decide_eq_true hgt.ne', Bool.and_self, Bool.and_true]

/-- Without its lowest bit a word has one bit less. -/
theorem popCount_and_sub_one {c : BitVec w} (h : c ≠ 0) :
    popCount (c &&& (c - 1#w)) + 1 = popCount c := by
  have hset := BitVec.getLsbD_true_ctz_of_ne_zero h
  have hmem : c.ctz.toNat ∈ (Finset.range w).filter fun i => c.getLsbD i = true :=
    Finset.mem_filter.2 ⟨Finset.mem_range.2 (BitVec.lt_of_getLsbD hset), hset⟩
  have herase : ((Finset.range w).filter fun i => (c &&& (c - 1#w)).getLsbD i = true) =
      ((Finset.range w).filter fun i => c.getLsbD i = true).erase c.ctz.toNat := by
    ext i
    simp only [Finset.mem_filter, Finset.mem_erase, getLsbD_and_sub_one h, Bool.and_eq_true,
      decide_eq_true_eq]
    exact ⟨fun ⟨hi, hbit, hne⟩ => ⟨hne, hi, hbit⟩, fun ⟨hne, hi, hbit⟩ => ⟨hi, hbit, hne⟩⟩
  rw [popCount_eq_card, popCount_eq_card, herase, Finset.card_erase_add_one hmem]

/-! ### The first and the last bit of a word -/

/-- Bit `n` is the first one of a word, from the highest bit on; `n` is the width if there is none. -/
structure FirstBit (c : BitVec w) (n : ℕ) : Prop where
  le : n ≤ w
  clear : ∀ i < n, c.getMsbD i = false
  set : n < w → c.getMsbD n = true

/-- Bit `n` is the lowest one of a word. -/
structure LowestBit (c : BitVec w) (n : ℕ) : Prop where
  set : c.getLsbD n = true
  clear : ∀ i < n, c.getLsbD i = false

theorem FirstBit.unique {c : BitVec w} {m n : ℕ} (hm : FirstBit c m) (hn : FirstBit c n) :
    m = n := by
  rcases Nat.lt_trichotomy m n with hlt | heq | hgt
  · exact absurd (hm.set (hlt.trans_le hn.le)) (by simp [hn.clear m hlt])
  · exact heq
  · exact absurd (hn.set (hgt.trans_le hm.le)) (by simp [hm.clear n hgt])

theorem FirstBit.append_left {a : BitVec v} {b : BitVec w} {n : ℕ} (h : FirstBit a n)
    (ha : a ≠ 0) : FirstBit (a ++ b) n := by
  have hlt : n < v := by
    refine lt_of_le_of_ne h.le ?_
    rintro rfl
    refine ha (BitVec.eq_of_getMsbD_eq fun i hi => ?_)
    rw [h.clear i hi]
    simp
  refine ⟨h.le.trans (Nat.le_add_right ..), fun i hi => ?_, fun _ => ?_⟩
  · rw [BitVec.getMsbD_append, if_neg (by omega)]
    exact h.clear i hi
  · rw [BitVec.getMsbD_append, if_neg (by omega)]
    exact h.set hlt

theorem FirstBit.append_zero {b : BitVec w} {n : ℕ} (h : FirstBit b n) :
    FirstBit ((0 : BitVec v) ++ b) (v + n) := by
  refine ⟨Nat.add_le_add_left h.le v, fun i hi => ?_, fun hlt => ?_⟩
  · rw [BitVec.getMsbD_append]
    split_ifs with hv
    · exact h.clear (i - v) (by omega)
    · simp
  · rw [BitVec.getMsbD_append, if_pos (by omega), Nat.add_sub_cancel_left]
    exact h.set (by omega)

theorem LowestBit.lt {c : BitVec w} {n : ℕ} (h : LowestBit c n) : n < w :=
  BitVec.lt_of_getLsbD h.set

theorem LowestBit.append_right {a : BitVec v} {b : BitVec w} {n : ℕ} (h : LowestBit b n) :
    LowestBit (a ++ b) n := by
  refine ⟨?_, fun i hi => ?_⟩
  · rw [BitVec.getLsbD_append, if_pos h.lt]
    exact h.set
  · rw [BitVec.getLsbD_append, if_pos (hi.trans h.lt)]
    exact h.clear i hi

theorem LowestBit.append_zero {a : BitVec v} {n : ℕ} (h : LowestBit a n) :
    LowestBit (a ++ (0 : BitVec w)) (w + n) := by
  refine ⟨?_, fun i hi => ?_⟩
  · rw [BitVec.getLsbD_append, if_neg (by omega), Nat.add_sub_cancel_left]
    exact h.set
  · rw [BitVec.getLsbD_append]
    split_ifs with hw
    · simp
    · exact h.clear (i - w) (by omega)

/-- The lowest bit of a word, seen from the highest bit, is its last one. -/
theorem LowestBit.msb {c : BitVec w} {n : ℕ} (h : LowestBit c n) :
    c.getMsbD (w - 1 - n) = true ∧ ∀ i, w - 1 - n < i → c.getMsbD i = false := by
  have hlt := h.lt
  constructor
  · rw [BitVec.getMsbD_eq_getLsbD, decide_eq_true (by omega), Bool.true_and]
    have heq : w - 1 - (w - 1 - n) = n := by omega
    rw [heq]
    exact h.set
  · intro i hi
    rw [BitVec.getMsbD_eq_getLsbD]
    by_cases hw : i < w
    · rw [decide_eq_true hw, Bool.true_and]
      exact h.clear _ (by omega)
    · rw [decide_eq_false hw, Bool.false_and]

theorem lowestBit_ctz {c : BitVec w} (h : c ≠ 0) : LowestBit c c.ctz.toNat :=
  ⟨BitVec.getLsbD_true_ctz_of_ne_zero h, fun _ hi => BitVec.getLsbD_false_of_lt_ctz hi⟩

/-- `~x & (x - 1)` has the bits below the lowest bit of `x`. -/
theorem lowestBit_of_firstBit {c : BitVec w} (h : c ≠ 0) {n : ℕ}
    (hn : FirstBit (~~~c &&& (c - 1#w)) n) : LowestBit c (w - n) := by
  have hlt := (lowestBit_ctz h).lt
  have hbit : ∀ i < w, (~~~c &&& (c - 1#w)).getLsbD i = decide (i < c.ctz.toNat) := by
    intro i hi
    rw [BitVec.getLsbD_and, getLsbD_sub_one h, BitVec.getLsbD_not, decide_eq_true hi, Bool.true_and]
    rcases Nat.lt_or_ge c.ctz.toNat i with hgt | hle
    · rw [if_neg hgt.not_ge, Bool.not_and_self, decide_eq_false hgt.not_gt]
    · rw [if_pos hle]
      rcases Nat.lt_or_eq_of_le hle with hlt | heq
      · rw [BitVec.getLsbD_false_of_lt_ctz hlt, Bool.not_false, Bool.true_and]
      · rw [decide_eq_false heq.not_lt, Bool.and_false]
  have hfirst : FirstBit (~~~c &&& (c - 1#w)) (w - c.ctz.toNat) := by
    refine ⟨Nat.sub_le .., fun i hi => ?_, fun hi => ?_⟩
    · have hge : ¬ w - 1 - i < c.ctz.toNat := by omega
      rw [BitVec.getMsbD_eq_getLsbD, hbit _ (by omega), decide_eq_false hge, Bool.and_false]
    · rw [BitVec.getMsbD_eq_getLsbD, hbit _ (by omega), decide_eq_true hi, decide_eq_true (by omega)]
      rfl
  have heq : w - n = c.ctz.toNat := by
    have := hn.unique hfirst
    omega
  rw [heq]
  exact lowestBit_ctz h

end OMR.Lib
