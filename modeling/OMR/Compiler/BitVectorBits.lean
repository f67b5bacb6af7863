import OMR.Compiler.BitVector

/-!
# The bits of a bit vector

Whether the bit of an index is set, for both ways of numbering the bits of a chunk, and when a
vector knows its chunks that are not zero.
-/

namespace OMR.Compiler

open OMR.Lib

theorem toInt32_of_lt {x : ℤ} (hlow : -2 ^ 31 ≤ x) (hhigh : x < 2 ^ 31) : toInt32 x = x :=
  Int.bmod_eq_of_le (by norm_num; omega) (by norm_num; omega)

theorem countUp_eq_map (low high : ℤ) :
    countUp low high = (List.range (high - low).toNat).map fun k : ℕ => low + (k : ℤ) := by
  simp only [countUp, bind_pure_comp, List.map_eq_map, List.map_map]
  rfl

theorem mem_countUp {low high k : ℤ} : k ∈ countUp low high ↔ low ≤ k ∧ k < high := by
  rw [countUp_eq_map, List.mem_map]
  constructor
  · rintro ⟨j, hj, rfl⟩
    rw [List.mem_range] at hj
    omega
  · rintro ⟨hle, hlt⟩
    exact ⟨(k - low).toNat, List.mem_range.2 (by omega), by omega⟩

theorem countUp_of_le {low high : ℤ} (h : high ≤ low) : countUp low high = [] :=
  List.eq_nil_iff_forall_not_mem.2 fun k hk => by
    have := mem_countUp.1 hk
    omega

theorem countUp_cons {low high : ℤ} (h : low < high) :
    countUp low high = low :: countUp (low + 1) high := by
  have hlen : (high - low).toNat = (high - (low + 1)).toNat + 1 := by omega
  rw [countUp_eq_map, countUp_eq_map, hlen, List.range_succ_eq_map, List.map_cons, List.map_map,
    Nat.cast_zero, Int.add_zero]
  refine congrArg (low :: ·) (List.map_congr_left fun k _ => ?_)
  rw [Function.comp_apply]
  push_cast
  omega

theorem countUp_pairwise (low high : ℤ) : (countUp low high).Pairwise (· < ·) := by
  rw [countUp_eq_map]
  exact List.pairwise_map.2 (List.pairwise_lt_range.imp fun hlt => by omega)

theorem countUp_append {low m high : ℤ} (hlow : low ≤ m) (hhigh : m ≤ high) :
    countUp low high = countUp low m ++ countUp m high := by
  have hlen : (high - low).toNat = (m - low).toNat + (high - m).toNat := by omega
  rw [countUp_eq_map, countUp_eq_map, countUp_eq_map, hlen, List.range_add, List.map_append,
    List.map_map]
  refine congrArg (_ ++ ·) (List.map_congr_left fun k _ => ?_)
  rw [Function.comp_apply]
  push_cast
  omega

namespace Layout

variable {L : Layout} {c : L.Chunk} {m n : ℤ}

theorem bitsInChunk_pos : 0 < L.bitsInChunk := Nat.two_pow_pos _

theorem indexInChunk_nonneg (n : ℤ) : 0 ≤ n % (L.bitsInChunk : ℤ) :=
  Int.emod_nonneg _ (by exact_mod_cast L.bitsInChunk_pos.ne')

theorem indexInChunk_lt (n : ℤ) : n % (L.bitsInChunk : ℤ) < L.bitsInChunk :=
  Int.emod_lt_of_pos _ (by exact_mod_cast L.bitsInChunk_pos)

theorem position_lt (n : ℤ) : L.position n < L.bitsInChunk := by
  have hlt := L.indexInChunk_lt n
  have hnonneg := L.indexInChunk_nonneg n
  have hpos := L.bitsInChunk_pos
  unfold position getIndexInChunk
  split
  · omega
  · omega

/-- Whether a chunk has the bit of an index. -/
def hasBit (L : Layout) (c : L.Chunk) (n : ℤ) : Bool := c.getLsbD (L.position n)

theorem and_getBitMask_ne_zero_iff : c &&& L.getBitMask n ≠ 0 ↔ L.hasBit c n = true := by
  rw [word_ne_zero_iff]
  unfold getBitMask
  constructor
  · rintro ⟨i, hi, hbit⟩
    rw [BitVec.getLsbD_and, getLsbD_one_shiftLeft hi, Bool.and_eq_true, decide_eq_true_eq] at hbit
    obtain ⟨hbit, rfl⟩ := hbit
    exact hbit
  · intro hbit
    refine ⟨L.position n, L.position_lt n, ?_⟩
    rw [BitVec.getLsbD_and, getLsbD_one_shiftLeft (L.position_lt n), decide_eq_true rfl,
      Bool.and_true]
    exact hbit

theorem hasBit_congr (h : m % (L.bitsInChunk : ℤ) = n % (L.bitsInChunk : ℤ)) :
    L.hasBit c m = L.hasBit c n := by
  unfold hasBit position getIndexInChunk
  rw [h]

theorem hasBit_zero (n : ℤ) : L.hasBit 0 n = false := BitVec.getLsbD_zero

/-- A chunk that is not zero has the bit of one of its indices. -/
theorem chunk_ne_zero_iff : c ≠ 0 ↔ ∃ j : ℤ, 0 ≤ j ∧ j < L.bitsInChunk ∧ L.hasBit c j = true := by
  constructor
  · intro hne
    obtain ⟨i, hi, hbit⟩ := word_ne_zero_iff.1 hne
    cases hmsb : L.bitNumberingMsb with
    | true =>
      have hmod : ((L.bitsInChunk - 1 - i : ℕ) : ℤ) % (L.bitsInChunk : ℤ) =
          (L.bitsInChunk - 1 - i : ℕ) := Int.emod_eq_of_lt (by omega) (by omega)
      refine ⟨(L.bitsInChunk - 1 - i : ℕ), by omega, by omega, ?_⟩
      rw [hasBit, position, hmsb, if_pos rfl, getIndexInChunk, hmod, Int.toNat_natCast]
      have heq : L.bitsInChunk - 1 - (L.bitsInChunk - 1 - i) = i := by omega
      rw [heq]
      exact hbit
    | false =>
      have hmod : (i : ℤ) % (L.bitsInChunk : ℤ) = i := Int.emod_eq_of_lt (by omega) (by omega)
      refine ⟨i, by omega, by omega, ?_⟩
      rw [hasBit, position, hmsb, if_neg Bool.false_ne_true, getIndexInChunk, hmod,
        Int.toNat_natCast]
      exact hbit
  · rintro ⟨j, -, -, hbit⟩ rfl
    rw [hasBit_zero] at hbit
    exact Bool.noConfusion hbit

theorem hasBit_and (c d : L.Chunk) (n : ℤ) :
    L.hasBit (c &&& d) n = (L.hasBit c n && L.hasBit d n) := BitVec.getLsbD_and

theorem hasBit_or (c d : L.Chunk) (n : ℤ) :
    L.hasBit (c ||| d) n = (L.hasBit c n || L.hasBit d n) := BitVec.getLsbD_or

theorem hasBit_not (c : L.Chunk) (n : ℤ) : L.hasBit (~~~c) n = !L.hasBit c n := by
  rw [hasBit, BitVec.getLsbD_not, decide_eq_true (L.position_lt n), Bool.true_and]
  rfl

theorem hasBit_allOnes (n : ℤ) : L.hasBit (BitVec.allOnes _) n = true := by
  rw [hasBit, BitVec.getLsbD_allOnes, decide_eq_true (L.position_lt n)]

theorem hasBit_getBitMask (m n : ℤ) :
    L.hasBit (L.getBitMask n) m = decide (m % (L.bitsInChunk : ℤ) = n % L.bitsInChunk) := by
  have hm := L.indexInChunk_nonneg m
  have hn := L.indexInChunk_nonneg n
  have hmlt := L.indexInChunk_lt m
  have hnlt := L.indexInChunk_lt n
  rw [hasBit, getBitMask, getLsbD_one_shiftLeft (L.position_lt m), decide_eq_decide, position,
    position, getIndexInChunk, getIndexInChunk]
  split_ifs <;> omega

/-- The mask of the indices between two indices of a chunk. -/
theorem hasBit_getBitMasks {k : ℤ} (hle : m % (L.bitsInChunk : ℤ) ≤ n % L.bitsInChunk) :
    L.hasBit (L.getBitMasks m n) k = decide (m % (L.bitsInChunk : ℤ) ≤ k % L.bitsInChunk ∧
      k % (L.bitsInChunk : ℤ) ≤ n % L.bitsInChunk) := by
  have hk := L.indexInChunk_nonneg k
  have hm := L.indexInChunk_nonneg m
  have hn := L.indexInChunk_nonneg n
  have hklt := L.indexInChunk_lt k
  have hmlt := L.indexInChunk_lt m
  have hnlt := L.indexInChunk_lt n
  rw [hasBit, getBitMasks, getBitMask, getBitMask]
  cases hmsb : L.bitNumberingMsb with
  | true =>
    have hposition (i : ℤ) : L.position i = L.bitsInChunk - 1 - (i % (L.bitsInChunk : ℤ)).toNat := by
      rw [position, hmsb, if_pos rfl, getIndexInChunk]
    rw [if_pos rfl, getLsbD_interval (by rw [hposition, hposition]; omega) (L.position_lt m),
      decide_eq_decide, hposition, hposition, hposition]
    omega
  | false =>
    have hposition (i : ℤ) : L.position i = (i % (L.bitsInChunk : ℤ)).toNat := by
      rw [position, hmsb, if_neg Bool.false_ne_true, getIndexInChunk]
    rw [if_neg Bool.false_ne_true, getLsbD_interval (by rw [hposition, hposition]; omega)
      (L.position_lt n), decide_eq_decide, hposition, hposition, hposition]
    omega

/-- The bits of a chunk from an index on. -/
theorem hasBit_and_getBitMasks :
    L.hasBit (c &&& L.getBitMasks m (L.bitsInChunk - 1)) n =
      (L.hasBit c n && decide (m % (L.bitsInChunk : ℤ) ≤ n % (L.bitsInChunk : ℤ))) := by
  have hn := L.indexInChunk_lt n
  have hm := L.indexInChunk_lt m
  have hpos := L.bitsInChunk_pos
  have hmod : ((L.bitsInChunk : ℤ) - 1) % (L.bitsInChunk : ℤ) = (L.bitsInChunk : ℤ) - 1 :=
    Int.emod_eq_of_lt (by omega) (by omega)
  rw [hasBit_and, hasBit_getBitMasks (by omega), hmod]
  exact congrArg (L.hasBit c n && ·) (decide_eq_decide.2 ⟨fun h => h.1, fun h => ⟨h, by omega⟩⟩)

theorem ediv_add_emod (n : ℤ) :
    (L.bitsInChunk : ℤ) * (n / L.bitsInChunk) + n % L.bitsInChunk = n := Int.mul_ediv_add_emod n _

/-- Indices of one chunk are in the order of their places in it. -/
theorem emod_lt_emod (hlt : m < n) (hchunk : n / L.bitsInChunk = m / L.bitsInChunk) :
    m % (L.bitsInChunk : ℤ) < n % (L.bitsInChunk : ℤ) := by
  have hm := L.ediv_add_emod m
  have hn := L.ediv_add_emod n
  rw [hchunk] at hn
  omega

theorem lt_of_ediv_lt (h : n / (L.bitsInChunk : ℤ) < m / L.bitsInChunk) : n < m := by
  by_contra hle
  exact absurd (Int.ediv_le_ediv (by exact_mod_cast L.bitsInChunk_pos) (not_lt.1 hle)) h.not_ge

/-- Indices of one chunk are compared by their places. -/
theorem le_iff_emod_le (h : n / (L.bitsInChunk : ℤ) = m / L.bitsInChunk) :
    m ≤ n ↔ m % (L.bitsInChunk : ℤ) ≤ n % L.bitsInChunk := by
  have hn := L.ediv_add_emod n
  have hm := L.ediv_add_emod m
  rw [h] at hn
  omega

end Layout

namespace BitVector

variable {L : Layout} {v : BitVector L} {n : ℤ}

/-- What `sanityCheck` asks: the first and the last chunk that is not zero are known. -/
structure Exact (v : BitVector L) : Prop where
  numChunks_nonneg : 0 ≤ v.numChunks
  exact_chunks : v.firstChunkWithNonZero = v.numChunks ∧ v.lastChunkWithNonZero = -1 ∧
      (∀ i, v.chunks i = 0) ∨
    0 ≤ v.firstChunkWithNonZero ∧ v.lastChunkWithNonZero < v.numChunks ∧
      v.chunks v.firstChunkWithNonZero ≠ 0 ∧ v.chunks v.lastChunkWithNonZero ≠ 0 ∧
      ∀ i, v.chunks i ≠ 0 → v.firstChunkWithNonZero ≤ i ∧ i ≤ v.lastChunkWithNonZero

/-- The indices up to the size also fit into the 32 bits of an iterator. -/
structure WellFormed (v : BitVector L) : Prop extends v.Exact where
  size_lt : v.numChunks * L.bitsInChunk < 2 ^ 31

/-- Whether the bit of an index is set. -/
def bit (v : BitVector L) (n : ℤ) : Bool := L.hasBit (v.chunks (n / L.bitsInChunk)) n

theorem Exact.chunk_bounds (h : v.Exact) {i : ℤ} (hi : v.chunks i ≠ 0) :
    0 ≤ i ∧ v.firstChunkWithNonZero ≤ i ∧ i ≤ v.lastChunkWithNonZero ∧ i < v.numChunks := by
  rcases h.exact_chunks with ⟨-, -, hzero⟩ | ⟨hfirst, hlast, -, -, hwithin⟩
  · exact absurd (hzero i) hi
  · obtain ⟨hge, hle⟩ := hwithin i hi
    exact ⟨hfirst.trans hge, hge, hle, hle.trans_lt hlast⟩

theorem Exact.last_lt (h : v.Exact) :
    -1 ≤ v.lastChunkWithNonZero ∧ v.lastChunkWithNonZero < v.numChunks := by
  have hnonneg := h.numChunks_nonneg
  rcases h.exact_chunks with ⟨-, hlast, -⟩ | ⟨-, hlast, -, hne, -⟩
  · omega
  · have := (h.chunk_bounds hne).1
    omega

theorem chunk_ne_zero_of_bit (hbit : v.bit n = true) : v.chunks (n / L.bitsInChunk) ≠ 0 := by
  intro hzero
  rw [bit, hzero, Layout.hasBit_zero] at hbit
  exact Bool.noConfusion hbit

/-- Indices and the size, by the number of the chunk. -/
theorem lt_size_iff : n < v.numChunks * L.bitsInChunk ↔ n / L.bitsInChunk < v.numChunks :=
  (Int.ediv_lt_iff_lt_mul (by exact_mod_cast L.bitsInChunk_pos)).symm

theorem ediv_nonneg_iff : 0 ≤ n / (L.bitsInChunk : ℤ) ↔ 0 ≤ n := by
  rw [Int.le_ediv_iff_mul_le (by exact_mod_cast L.bitsInChunk_pos), Int.zero_mul]

theorem Exact.bit_bounds (h : v.Exact) (hbit : v.bit n = true) :
    0 ≤ n ∧ n < v.numChunks * L.bitsInChunk := by
  obtain ⟨hnonneg, -, -, hlt⟩ := h.chunk_bounds (chunk_ne_zero_of_bit hbit)
  exact ⟨ediv_nonneg_iff.1 hnonneg, lt_size_iff.2 hlt⟩

/-- The number of a chunk of an index within the vector, or of the one behind it, is exact. -/
theorem WellFormed.getChunkIndex_eq (h : v.WellFormed) (hn : 0 ≤ n)
    (hsize : n ≤ v.numChunks * L.bitsInChunk) : L.getChunkIndex n = n / L.bitsInChunk := by
  have hlt := h.size_lt
  have hpos : (0 : ℤ) < L.bitsInChunk := by exact_mod_cast L.bitsInChunk_pos
  have hle := Int.ediv_le_self (L.bitsInChunk : ℤ) hn
  have hnonneg : 0 ≤ n / (L.bitsInChunk : ℤ) := ediv_nonneg_iff.2 hn
  exact toInt32_of_lt (by omega) (by omega)

theorem Exact.get_eq (h : v.Exact) (hn : L.getChunkIndex n = n / L.bitsInChunk) :
    v.get n = v.bit n := by
  rw [get, hn]
  split_ifs with hlast
  · refine (Bool.eq_false_iff.2 fun hbit => ?_).symm
    have := (h.chunk_bounds (chunk_ne_zero_of_bit hbit)).2.2.1
    omega
  · rw [Bool.eq_iff_iff, decide_eq_true_eq, Layout.and_getBitMask_ne_zero_iff]
    rfl

theorem bit_eq_false_of_chunk {i : ℤ} (hchunk : v.chunks i = 0) (hn : n / L.bitsInChunk = i) :
    v.bit n = false := by
  rw [bit, hn, hchunk, Layout.hasBit_zero]

theorem Exact.bit_eq_false_of_last (h : v.Exact)
    (hn : v.lastChunkWithNonZero < n / L.bitsInChunk) : v.bit n = false := by
  refine Bool.eq_false_iff.2 fun hbit => ?_
  have := (h.chunk_bounds (chunk_ne_zero_of_bit hbit)).2.2.1
  omega

/-- The first index of a chunk. -/
theorem ediv_getBitIndex (i : ℤ) : L.getBitIndex i / (L.bitsInChunk : ℤ) = i :=
  Int.mul_ediv_cancel i (by exact_mod_cast L.bitsInChunk_pos.ne')

theorem lt_add_of_ediv_eq {m : ℤ} (h : n / (L.bitsInChunk : ℤ) = m / L.bitsInChunk) :
    n - m < L.bitsInChunk := by
  have hn := L.ediv_add_emod n
  have hm := L.ediv_add_emod m
  have hlt := L.indexInChunk_lt n
  have hnonneg := L.indexInChunk_nonneg m
  rw [h] at hn
  omega

theorem ediv_le_ediv {m : ℤ} (h : m ≤ n) : m / (L.bitsInChunk : ℤ) ≤ n / L.bitsInChunk :=
  Int.ediv_le_ediv (by exact_mod_cast L.bitsInChunk_pos) h

/-- A chunk that is not zero has the bit of an index of any chunk number. -/
theorem exists_hasBit {c : L.Chunk} (hc : c ≠ 0) (i : ℤ) :
    ∃ k, k / (L.bitsInChunk : ℤ) = i ∧ L.hasBit c k = true := by
  obtain ⟨j, hj, hjlt, hbit⟩ := Layout.chunk_ne_zero_iff.1 hc
  have hmod : ((L.bitsInChunk : ℤ) * i + j) % L.bitsInChunk = j := by
    rw [Int.mul_add_emod_self_left, Int.emod_eq_of_lt hj hjlt]
  refine ⟨(L.bitsInChunk : ℤ) * i + j, ?_, ?_⟩
  · rw [Int.add_comm, Int.add_mul_ediv_left _ _ (by omega), Int.ediv_eq_zero_of_lt hj hjlt,
      Int.zero_add]
  · rw [Layout.hasBit_congr (hmod.trans (Int.emod_eq_of_lt hj hjlt).symm)]
    exact hbit

theorem Exact.last_ne_zero (h : v.Exact) (hlast : 0 ≤ v.lastChunkWithNonZero) :
    v.chunks v.lastChunkWithNonZero ≠ 0 := by
  rcases h.exact_chunks with ⟨-, hnone, -⟩ | ⟨-, -, -, hne, -⟩
  · omega
  · exact hne

/-- The loop ends at the first chunk that is not zero, if there is one. -/
theorem scanUp_spec (chunks : ℤ → L.Chunk) (fuel : ℕ) (low : ℤ) :
    low ≤ scanUp chunks low fuel ∧ scanUp chunks low fuel ≤ low + fuel ∧
      (∀ i, low ≤ i → i < scanUp chunks low fuel → chunks i = 0) ∧
      (scanUp chunks low fuel < low + fuel → chunks (scanUp chunks low fuel) ≠ 0) := by
  induction fuel generalizing low with
  | zero =>
    refine ⟨le_rfl, by simp [scanUp], fun i hi hlt => absurd hi hlt.not_ge, fun h => ?_⟩
    simp [scanUp] at h
  | succ fuel ih =>
    rw [scanUp]
    push_cast
    split_ifs with hzero
    · obtain ⟨hge, hle, hbefore, hend⟩ := ih (low + 1)
      refine ⟨by omega, by omega, fun i hi hlt => ?_, fun hlt => hend (by omega)⟩
      rcases Int.lt_or_eq_of_le hi with hi | rfl
      · exact hbefore i hi hlt
      · exact hzero
    · exact ⟨le_rfl, by omega, fun i hi hlt => absurd hi hlt.not_ge, fun _ => hzero⟩

/-- The loop that goes down ends at the last chunk that is not zero, if there is one. -/
theorem scanDown_spec (chunks : ℤ → L.Chunk) (fuel : ℕ) (high : ℤ) :
    scanDown chunks high fuel ≤ high ∧ high - fuel ≤ scanDown chunks high fuel ∧
      (∀ i, scanDown chunks high fuel < i → i ≤ high → chunks i = 0) ∧
      (high - fuel < scanDown chunks high fuel → chunks (scanDown chunks high fuel) ≠ 0) := by
  induction fuel generalizing high with
  | zero =>
    refine ⟨le_rfl, by simp [scanDown], fun i hi hle => absurd hle hi.not_ge, fun h => ?_⟩
    simp [scanDown] at h
  | succ fuel ih =>
    rw [scanDown]
    push_cast
    split_ifs with hzero
    · obtain ⟨hle, hge, hafter, hend⟩ := ih (high - 1)
      refine ⟨by omega, by omega, fun i hi hihigh => ?_, fun hlt => hend (by omega)⟩
      rcases Int.lt_or_eq_of_le hihigh with hihigh | rfl
      · exact hafter i hi (by omega)
      · exact hzero
    · exact ⟨le_rfl, by omega, fun i hi hle => absurd hle hi.not_ge, fun _ => hzero⟩

/-- `resetLowAndHighChunks` finds the first and the last chunk again. -/
theorem exact_resetLowAndHighChunks {low high : ℤ} (hsize : 0 ≤ v.numChunks) (hlow : 0 ≤ low)
    (hhigh : high < v.numChunks) (hwithin : ∀ i, v.chunks i ≠ 0 → low ≤ i ∧ i ≤ high) :
    (v.resetLowAndHighChunks low high).Exact := by
  obtain ⟨hge, hle, hbefore, hend⟩ := scanUp_spec v.chunks (high - low + 1).toNat low
  rw [resetLowAndHighChunks]
  generalize scanUp v.chunks low (high - low + 1).toNat = first at hge hle hbefore hend
  have hbelow (i : ℤ) (hi : v.chunks i ≠ 0) : first ≤ i := by
    by_contra hlt
    exact hi (hbefore i (hwithin i hi).1 (not_le.1 hlt))
  by_cases hempty : first > high
  · rw [if_pos hempty]
    refine ⟨hsize, .inl ⟨rfl, rfl, fun i => ?_⟩⟩
    by_contra hi
    have := hbelow i hi
    have := (hwithin i hi).2
    omega
  · have hfirst : v.chunks first ≠ 0 := hend (by omega)
    obtain ⟨hdown, hup, hafter, hlast⟩ := scanDown_spec v.chunks (high - first).toNat high
    rw [if_neg hempty]
    generalize scanDown v.chunks high (high - first).toNat = last at hdown hup hafter hlast
    have hlastne : v.chunks last ≠ 0 := by
      by_cases heq : last = first
      · rw [heq]
        exact hfirst
      · exact hlast (by omega)
    refine ⟨hsize, .inr ⟨hlow.trans hge, ?_, hfirst, hlastne, fun i hi => ⟨hbelow i hi, ?_⟩⟩⟩
    · exact hdown.trans_lt hhigh
    · by_contra hlt
      exact hi (hafter i (not_le.1 hlt) (hwithin i hi).2)

@[simp] theorem bit_resetLowAndHighChunks {low high : ℤ} :
    (v.resetLowAndHighChunks low high).bit n = v.bit n := by
  rw [resetLowAndHighChunks]
  split_ifs <;> rfl

theorem onChunks_apply {lo hi : ℤ} (f : ℤ → L.Chunk → L.Chunk) (chunks : ℤ → L.Chunk) (i : ℤ) :
    onChunks lo hi f chunks i = if lo ≤ i ∧ i ≤ hi then f i (chunks i) else chunks i := rfl

@[simp] theorem numChunks_setChunkSize (chunkSize : ℤ) :
    (v.setChunkSize chunkSize).numChunks = chunkSize := by
  rw [setChunkSize]
  split_ifs with hsame hzero
  · exact hsame.symm
  · exact hzero.symm
  all_goals rfl

@[simp] theorem numChunks_resetLowAndHighChunks (low high : ℤ) :
    (v.resetLowAndHighChunks low high).numChunks = v.numChunks := by
  rw [resetLowAndHighChunks]
  split_ifs <;> rfl

theorem Exact.chunks_eq_zero (h : v.Exact) {i : ℤ} (hi : v.numChunks ≤ i) :
    v.chunks i = 0 := by
  by_contra hne
  have := (h.chunk_bounds hne).2.2.2
  omega

theorem Exact.first_of_last_neg (h : v.Exact) (hlast : v.lastChunkWithNonZero < 0) :
    v.firstChunkWithNonZero = v.numChunks := by
  rcases h.exact_chunks with ⟨hfirst, -, -⟩ | ⟨-, -, -, hne, -⟩
  · exact hfirst
  · have := (h.chunk_bounds hne).1
    omega

theorem Exact.first_ne_zero (h : v.Exact) (hlast : 0 ≤ v.lastChunkWithNonZero) :
    0 ≤ v.firstChunkWithNonZero ∧ v.chunks v.firstChunkWithNonZero ≠ 0 := by
  rcases h.exact_chunks with ⟨-, hnone, -⟩ | ⟨hfirst, -, hne, -⟩
  · omega
  · exact ⟨hfirst, hne⟩

theorem chunk_ne_zero_iff_bit {i : ℤ} :
    v.chunks i ≠ 0 ↔ ∃ k, k / (L.bitsInChunk : ℤ) = i ∧ v.bit k = true := by
  constructor
  · intro hi
    obtain ⟨k, hk, hbit⟩ := exists_hasBit hi i
    refine ⟨k, hk, ?_⟩
    rw [bit, hk]
    exact hbit
  · rintro ⟨k, rfl, hbit⟩
    exact chunk_ne_zero_of_bit hbit

theorem Exact.bit_chunk (h : v.Exact) (hbit : v.bit n = true) :
    0 ≤ n / (L.bitsInChunk : ℤ) ∧ v.firstChunkWithNonZero ≤ n / L.bitsInChunk ∧
      n / (L.bitsInChunk : ℤ) ≤ v.lastChunkWithNonZero ∧ n / L.bitsInChunk < v.numChunks :=
  h.chunk_bounds (chunk_ne_zero_of_bit hbit)

/-- The first and the last chunk of a set are those of two of its members. -/
theorem exact_of_bits (hsize : 0 ≤ v.numChunks) (hfirst : 0 ≤ v.firstChunkWithNonZero)
    (hlast : v.lastChunkWithNonZero < v.numChunks)
    (hfirstbit : ∃ k, k / (L.bitsInChunk : ℤ) = v.firstChunkWithNonZero ∧ v.bit k = true)
    (hlastbit : ∃ k, k / (L.bitsInChunk : ℤ) = v.lastChunkWithNonZero ∧ v.bit k = true)
    (hwithin : ∀ k, v.bit k = true → v.firstChunkWithNonZero ≤ k / L.bitsInChunk ∧
      k / (L.bitsInChunk : ℤ) ≤ v.lastChunkWithNonZero) : v.Exact := by
  refine ⟨hsize, .inr ⟨hfirst, hlast, chunk_ne_zero_iff_bit.2 hfirstbit,
    chunk_ne_zero_iff_bit.2 hlastbit, fun i hi => ?_⟩⟩
  obtain ⟨k, rfl, hbit⟩ := chunk_ne_zero_iff_bit.1 hi
  exact hwithin k hbit

theorem Exact.exists_first (h : v.Exact) (hlast : 0 ≤ v.lastChunkWithNonZero) :
    ∃ k, k / (L.bitsInChunk : ℤ) = v.firstChunkWithNonZero ∧ v.bit k = true :=
  chunk_ne_zero_iff_bit.1 (h.first_ne_zero hlast).2

theorem Exact.exists_last (h : v.Exact) (hlast : 0 ≤ v.lastChunkWithNonZero) :
    ∃ k, k / (L.bitsInChunk : ℤ) = v.lastChunkWithNonZero ∧ v.bit k = true :=
  chunk_ne_zero_iff_bit.1 (h.last_ne_zero hlast)

theorem Exact.bit_of_empty (h : v.Exact) (hlast : v.lastChunkWithNonZero < 0) (n : ℤ) :
    v.bit n = false := by
  refine Bool.eq_false_iff.2 fun hbit => ?_
  have := h.bit_chunk hbit
  omega

/-! ### Growth -/

theorem wellFormed_new : (new : BitVector L).WellFormed :=
  ⟨⟨le_rfl, .inl ⟨rfl, rfl, fun _ => rfl⟩⟩, by rw [new, Int.zero_mul]; decide⟩

/-- A vector with more chunks. -/
def resized (v : BitVector L) (numChunks : ℤ) : BitVector L :=
  { v with
    numChunks := numChunks
    firstChunkWithNonZero :=
      if v.lastChunkWithNonZero < 0 then numChunks else v.firstChunkWithNonZero }

@[simp] theorem bit_resized (numChunks : ℤ) : (v.resized numChunks).bit n = v.bit n := rfl

theorem Exact.resized (h : v.Exact) {numChunks : ℤ} (hle : v.numChunks ≤ numChunks) :
    (v.resized numChunks).Exact := by
  refine ⟨h.numChunks_nonneg.trans hle, ?_⟩
  rw [BitVector.resized]
  rcases h.exact_chunks with ⟨-, hlast, hzero⟩ | ⟨hfirst, hlast, hne, hlastne, hwithin⟩
  · rw [if_pos (by omega)]
    exact .inl ⟨rfl, hlast, hzero⟩
  · have hbounds := h.chunk_bounds hlastne
    rw [if_neg (by omega)]
    exact .inr ⟨hfirst, hlast.trans_le hle, hne, hlastne, hwithin⟩

/-- Growth leaves the chunks as they are. -/
theorem Exact.setChunkSize_eq (h : v.Exact) {chunkSize : ℤ} (hle : v.numChunks ≤ chunkSize) :
    v.setChunkSize chunkSize = v.resized chunkSize := by
  have hnonneg := h.numChunks_nonneg
  rw [setChunkSize, BitVector.resized]
  by_cases hsame : chunkSize = v.numChunks
  · have hfirst : (if v.lastChunkWithNonZero < 0 then v.numChunks else v.firstChunkWithNonZero) =
        v.firstChunkWithNonZero := by
      split_ifs with hlast
      · exact (h.first_of_last_neg hlast).symm
      · rfl
    rw [if_pos hsame, hsame, hfirst]
  · have hchunks : (fun j => if j < v.numChunks then v.chunks j else 0) = v.chunks := by
      funext j
      split_ifs with hj
      · rfl
      · exact (h.chunks_eq_zero (not_lt.1 hj)).symm
    have hgrows : ¬v.numChunks > chunkSize := by omega
    have hcopy : ¬chunkSize < v.numChunks := by omega
    rw [if_neg hsame, if_neg (by omega), if_neg hgrows]
    dsimp only
    rw [if_neg hcopy, hchunks]

theorem Exact.growFor_eq (h : v.Exact) (i : ℤ) :
    v.growFor i = v.resized (max v.numChunks (i + 1)) := by
  rw [growFor]
  split_ifs with hgrow
  · rw [h.setChunkSize_eq (by omega), max_eq_right (by omega)]
  · rw [max_eq_left (by omega), ← h.setChunkSize_eq le_rfl, setChunkSize, if_pos rfl]

theorem Exact.growTo_eq (h : v.Exact) (size : ℤ) :
    v.growTo size = v.resized (max v.numChunks size) := by
  rw [growTo]
  split_ifs with hgrow
  · rw [h.setChunkSize_eq hgrow.le, max_eq_right hgrow.le]
  · rw [max_eq_left (not_lt.1 hgrow), ← h.setChunkSize_eq le_rfl, setChunkSize, if_pos rfl]

/-! ### Setting a bit -/

/-- The chunks of `set`. -/
theorem hasBit_setChunk (chunks : ℤ → L.Chunk) (n k : ℤ) :
    L.hasBit (onChunks (n / L.bitsInChunk) (n / L.bitsInChunk)
        (fun _ c => c ||| L.getBitMask n) chunks (k / L.bitsInChunk)) k =
      (L.hasBit (chunks (k / L.bitsInChunk)) k || decide (k = n)) := by
  rw [onChunks_apply]
  by_cases hchunk : k / (L.bitsInChunk : ℤ) = n / L.bitsInChunk
  · have hk := L.ediv_add_emod k
    have hn := L.ediv_add_emod n
    rw [hchunk] at hk
    rw [if_pos ⟨hchunk.ge, hchunk.le⟩, Layout.hasBit_or, Layout.hasBit_getBitMask]
    refine congrArg (L.hasBit _ k || ·) (decide_eq_decide.2 ?_)
    exact ⟨fun heq => by omega, fun heq => by rw [heq]⟩
  · have hne : k ≠ n := fun heq => hchunk (by rw [heq])
    rw [if_neg fun hin => hchunk (le_antisymm hin.2 hin.1), decide_eq_false hne, Bool.or_false]

/-- `set` adds its index to the bits. -/
theorem Exact.bit_set (h : v.Exact) (hn : L.getChunkIndex n = n / L.bitsInChunk) (k : ℤ) :
    (v.set n).bit k = (v.bit k || decide (k = n)) := by
  rw [BitVector.set, hn, h.growFor_eq]
  exact hasBit_setChunk v.chunks n k

/-- A vector to which the chunks from `low` to `high` are added, the first and the last of them with
a bit, is exact. -/
theorem Exact.extend (h : v.Exact) {w : BitVector L} {low high : ℤ} (hlow : 0 ≤ low)
    (hle : low ≤ high)
    (hnum : v.numChunks ≤ w.numChunks) (hhigh : high < w.numChunks)
    (hfirst : w.firstChunkWithNonZero =
      if v.lastChunkWithNonZero < 0 then low else min v.firstChunkWithNonZero low)
    (hlast : w.lastChunkWithNonZero = max v.lastChunkWithNonZero high)
    (hlowbit : ∃ k, k / (L.bitsInChunk : ℤ) = low ∧ w.bit k = true)
    (hhighbit : ∃ k, k / (L.bitsInChunk : ℤ) = high ∧ w.bit k = true)
    (hold : ∀ k, v.bit k = true → w.bit k = true)
    (hnew : ∀ k, w.bit k = true → v.bit k = true ∨
      low ≤ k / (L.bitsInChunk : ℤ) ∧ k / L.bitsInChunk ≤ high) : w.Exact := by
  obtain ⟨hvlast, hvlastlt⟩ := h.last_lt
  refine exact_of_bits (h.numChunks_nonneg.trans hnum) ?_ ?_ ?_ ?_ fun k hk => ?_
  · rw [hfirst]
    split_ifs with hneg
    · exact hlow
    · exact le_min (h.first_ne_zero (not_lt.1 hneg)).1 hlow
  · rw [hlast]
    omega
  · rw [hfirst]
    split_ifs with hneg
    · exact hlowbit
    · rcases min_choice v.firstChunkWithNonZero low with heq | heq <;> rw [heq]
      · obtain ⟨k, hk, hkbit⟩ := h.exists_first (not_lt.1 hneg)
        exact ⟨k, hk, hold k hkbit⟩
      · exact hlowbit
  · rw [hlast]
    rcases max_choice v.lastChunkWithNonZero high with heq | heq <;> rw [heq]
    · obtain ⟨k, hk, hkbit⟩ := h.exists_last (by omega)
      exact ⟨k, hk, hold k hkbit⟩
    · exact hhighbit
  · rw [hfirst, hlast]
    rcases hnew k hk with hkbit | hkbit
    · have := h.bit_chunk hkbit
      split_ifs <;> omega
    · split_ifs <;> omega

theorem Exact.set (h : v.Exact) (hn : 0 ≤ n) (hchunk : L.getChunkIndex n = n / L.bitsInChunk) :
    (v.set n).Exact := by
  have hnonneg : 0 ≤ n / (L.bitsInChunk : ℤ) := ediv_nonneg_iff.2 hn
  have hbit := h.bit_set hchunk
  have hself : (v.set n).bit n = true := by rw [hbit, decide_eq_true rfl, Bool.or_true]
  obtain ⟨hlast, hlastlt⟩ := h.last_lt
  refine h.extend hnonneg le_rfl ?_ ?_ ?_ ?_ ⟨n, rfl, hself⟩ ⟨n, rfl, hself⟩ (fun k hk => ?_)
    fun k hk => ?_
  · rw [BitVector.set, hchunk, h.growFor_eq]
    exact le_max_left _ _
  · rw [BitVector.set, hchunk, h.growFor_eq]
    exact (Int.lt_succ _).trans_le (le_max_right _ _)
  · rw [BitVector.set, hchunk, h.growFor_eq, BitVector.resized]
    dsimp only
    split_ifs <;> omega
  · rw [BitVector.set, hchunk, h.growFor_eq, BitVector.resized]
    dsimp only
    split_ifs <;> omega
  · rw [hbit, hk, Bool.true_or]
  · rw [hbit, Bool.or_eq_true, decide_eq_true_eq] at hk
    rcases hk with hk | rfl
    · exact .inl hk
    · exact .inr ⟨le_rfl, le_rfl⟩

theorem numChunks_resized (numChunks : ℤ) : (v.resized numChunks).numChunks = numChunks := rfl

/-- A well-formed vector stays so when the chunk of its new index fits. -/
theorem WellFormed.set (h : v.WellFormed) (hn : 0 ≤ n)
    (hsize : (n / L.bitsInChunk + 1) * L.bitsInChunk < 2 ^ 31) : (v.set n).WellFormed := by
  have hpos : (0 : ℤ) < L.bitsInChunk := by exact_mod_cast L.bitsInChunk_pos
  have hle := Int.ediv_le_self (L.bitsInChunk : ℤ) hn
  have hnonneg : 0 ≤ n / (L.bitsInChunk : ℤ) := ediv_nonneg_iff.2 hn
  have hlt : n < 2 ^ 31 :=
    ((Int.ediv_lt_iff_lt_mul hpos).1 (Int.lt_add_one_of_le le_rfl)).trans hsize
  have hchunk : L.getChunkIndex n = n / L.bitsInChunk := toInt32_of_lt (by omega) (by omega)
  refine ⟨h.toExact.set hn hchunk, ?_⟩
  rw [BitVector.set, hchunk, h.growFor_eq]
  dsimp only
  rw [numChunks_resized]
  rcases max_choice v.numChunks (n / L.bitsInChunk + 1) with heq | heq <;> rw [heq]
  · exact h.size_lt
  · exact hsize

end BitVector

end OMR.Compiler
