import OMR.Compiler.BitVectorBits

/-!
# The elements of a bit vector

What the iterator of a `TR_BitVector` goes over are the indices of the bits in increasing order, for
both ways of numbering the bits of a chunk, and `elementCount` is their number.
-/

namespace OMR.Compiler

open OMR.Lib

namespace Layout

variable {L : Layout} {c : L.Chunk} {n cur : ℤ}

/-- Going on to the next index within a chunk shifts the mask. -/
theorem incrementBitMask_getBitMask (h : n % (L.bitsInChunk : ℤ) + 1 < L.bitsInChunk) :
    L.incrementBitMask (L.getBitMask n) = L.getBitMask (n + 1) := by
  have hnonneg := L.indexInChunk_nonneg n
  have hmod : (n + 1) % (L.bitsInChunk : ℤ) = n % (L.bitsInChunk : ℤ) + 1 := by
    rw [Int.add_emod, Int.emod_eq_of_lt (a := 1) (by omega) (by omega),
      Int.emod_eq_of_lt (by omega) h]
  unfold incrementBitMask getBitMask
  cases hmsb : L.bitNumberingMsb with
  | true =>
    rw [if_pos rfl, position, position, hmsb, if_pos rfl, if_pos rfl, getIndexInChunk,
      getIndexInChunk, hmod]
    have heq : L.bitsInChunk - 1 - (n % (L.bitsInChunk : ℤ)).toNat =
        L.bitsInChunk - 1 - (n % (L.bitsInChunk : ℤ) + 1).toNat + 1 := by omega
    rw [heq, one_shiftLeft_ushiftRight_one (by omega)]
  | false =>
    rw [if_neg Bool.false_ne_true, position, position, hmsb, if_neg Bool.false_ne_true,
      if_neg Bool.false_ne_true, getIndexInChunk, getIndexInChunk, hmod,
      one_shiftLeft_add_self (by omega)]
    congr 1
    omega
theorem ediv_succ {n : ℤ} (h : n % (L.bitsInChunk : ℤ) + 1 < L.bitsInChunk) :
    (n + 1) / (L.bitsInChunk : ℤ) = n / L.bitsInChunk := by
  have hn := L.ediv_add_emod n
  have hnonneg := L.indexInChunk_nonneg n
  have hpos : (0 : ℤ) < L.bitsInChunk := by exact_mod_cast L.bitsInChunk_pos
  have hdiv : (n % (L.bitsInChunk : ℤ) + 1 + L.bitsInChunk * (n / L.bitsInChunk)) /
      L.bitsInChunk = n / L.bitsInChunk := by
    rw [Int.add_mul_ediv_left _ _ hpos.ne', Int.ediv_eq_zero_of_lt (by omega) h, Int.zero_add]
  have heq : n % (L.bitsInChunk : ℤ) + 1 + L.bitsInChunk * (n / L.bitsInChunk) = n + 1 := by omega
  rwa [heq] at hdiv

/-- The sequential check ends at the first bit that is left in the chunk. -/
theorem findBit_spec (fuel : ℕ) (hcur : 0 ≤ cur)
    (hne : ∃ k, cur ≤ k ∧ k < 2 ^ 31 ∧ k - cur < fuel ∧ k / L.bitsInChunk = cur / L.bitsInChunk ∧
      L.hasBit c k = true) :
    cur ≤ BitVector.findBit L c (L.getBitMask cur) cur fuel ∧
      BitVector.findBit L c (L.getBitMask cur) cur fuel / L.bitsInChunk = cur / L.bitsInChunk ∧
      L.hasBit c (BitVector.findBit L c (L.getBitMask cur) cur fuel) = true ∧
      ∀ j, cur ≤ j → j < BitVector.findBit L c (L.getBitMask cur) cur fuel →
        L.hasBit c j = false := by
  induction fuel generalizing cur with
  | zero =>
    obtain ⟨k, hle, -, hlt, -⟩ := hne
    omega
  | succ fuel ih =>
    obtain ⟨k, hle, hlt, hfuel, hchunk, hbit⟩ := hne
    rw [BitVector.findBit]
    by_cases hzero : c &&& L.getBitMask cur = 0
    · have hclear : L.hasBit c cur = false := by
        rw [← Bool.not_eq_true, ← and_getBitMask_ne_zero_iff, not_not]
        exact hzero
      have hkcur : cur < k := by
        refine lt_of_le_of_ne hle fun heq => ?_
        rw [heq, hbit] at hclear
        exact Bool.noConfusion hclear
      have hplace := L.emod_lt_emod hkcur hchunk
      have hkplace := L.indexInChunk_lt k
      have hnext : (cur + 1) / (L.bitsInChunk : ℤ) = cur / L.bitsInChunk :=
        L.ediv_succ (by omega)
      rw [if_pos hzero, incrementBitMask_getBitMask (by omega),
        toInt32_of_lt (by omega) (by omega)]
      obtain ⟨hge, hsame, hset, hbefore⟩ := @ih (cur + 1) (by omega)
        ⟨k, by omega, hlt, by push_cast at hfuel; omega, hchunk.trans hnext.symm, hbit⟩
      refine ⟨by omega, hsame.trans hnext, hset, fun j hj hjlt => ?_⟩
      rcases Int.lt_or_eq_of_le hj with hj | rfl
      · exact hbefore j hj hjlt
      · exact hclear
    · rw [if_neg hzero]
      exact ⟨le_rfl, rfl, and_getBitMask_ne_zero_iff.1 hzero,
        fun j hj hjlt => absurd hj hjlt.not_ge⟩

end Layout

namespace BitVector

variable {L : Layout} {v : BitVector L} {n cur : ℤ}

/-- An index is the next one with its bit set behind another one, or the size if there is none. -/
structure IsNextBit (v : BitVector L) (n next : ℤ) : Prop where
  lt : n < next
  clear_between : ∀ j, n < j → j < next → v.bit j = false
  bit_or_end : v.bit next = true ∨ next = v.numChunks * L.bitsInChunk

/-- What is left of a chunk when the indices before `cur` are masked out. -/
theorem hasBit_tmpChunk (hn : n / L.bitsInChunk = cur / L.bitsInChunk) (hle : cur ≤ n) :
    L.hasBit (v.chunks (cur / L.bitsInChunk) &&& L.getBitMasks cur (L.bitsInChunk - 1)) n =
      v.bit n := by
  have hplace : cur % (L.bitsInChunk : ℤ) ≤ n % (L.bitsInChunk : ℤ) := by
    rcases Int.lt_or_eq_of_le hle with hlt | rfl
    · exact (L.emod_lt_emod hlt hn).le
    · exact le_rfl
  rw [Layout.hasBit_and_getBitMasks, decide_eq_true hplace, Bool.and_true, bit, hn]

/-- A later index of a chunk is set exactly if the rest of the chunk is not zero. -/
theorem tmpChunk_ne_zero_iff :
    v.chunks (cur / L.bitsInChunk) &&& L.getBitMasks cur (L.bitsInChunk - 1) ≠ 0 ↔
      ∃ k, k / (L.bitsInChunk : ℤ) = cur / L.bitsInChunk ∧ cur ≤ k ∧ v.bit k = true := by
  constructor
  · intro htmp
    obtain ⟨k, hk, hbit⟩ := exists_hasBit htmp (cur / L.bitsInChunk)
    rw [Layout.hasBit_and_getBitMasks, Bool.and_eq_true, decide_eq_true_eq] at hbit
    have hcur := L.ediv_add_emod cur
    have hsplit := L.ediv_add_emod k
    rw [hk] at hsplit
    refine ⟨k, hk, by omega, ?_⟩
    rw [bit, hk]
    exact hbit.1
  · rintro ⟨k, hk, hle, hbit⟩ hzero
    rw [← hasBit_tmpChunk hk hle, hzero, Layout.hasBit_zero] at hbit
    exact Bool.noConfusion hbit

/-- When the bits from an index on are those of a chunk, and one of them is set, the sequential
check finds it. -/
theorem WellFormed.findBit_isNextBit (h : v.WellFormed) {c : L.Chunk} (hcur : 0 ≤ cur)
    (hc : ∀ k, k / (L.bitsInChunk : ℤ) = cur / L.bitsInChunk → cur ≤ k →
      L.hasBit c k = v.bit k)
    (hne : ∃ k, k / (L.bitsInChunk : ℤ) = cur / L.bitsInChunk ∧ cur ≤ k ∧ v.bit k = true) :
    v.IsNextBit (cur - 1) (findBit L c (L.getBitMask cur) cur L.bitsInChunk) := by
  obtain ⟨k, hk, hle, hbit⟩ := hne
  have hsize := (h.bit_bounds hbit).2
  have hlt := h.size_lt
  obtain ⟨hge, hsame, hfound, hbefore⟩ := L.findBit_spec (c := c) L.bitsInChunk hcur
    ⟨k, hle, by omega, lt_add_of_ediv_eq hk, hk, (hc k hk hle).trans hbit⟩
  refine ⟨by omega, fun j hj hjlt => ?_, .inl ?_⟩
  · have hchunk : j / (L.bitsInChunk : ℤ) = cur / L.bitsInChunk :=
      le_antisymm ((ediv_le_ediv hjlt.le).trans hsame.le) (ediv_le_ediv (by omega))
    rw [← hc j hchunk (by omega)]
    exact hbefore j (by omega) hjlt
  · rw [← hc _ hsame hge]
    exact hfound

/-- When a later chunk is not zero the search goes on at its start. -/
theorem WellFormed.findBit_chunk (h : v.WellFormed) {i : ℤ} (hi : v.chunks i ≠ 0) :
    v.IsNextBit (L.getBitIndex i - 1) (findBit L (v.chunks i) (L.getBitMask 0)
      (toInt32 (L.getBitIndex i)) L.bitsInChunk) := by
  obtain ⟨hnonneg, -, -, hlt⟩ := h.chunk_bounds hi
  have hchunk : L.getBitIndex i / (L.bitsInChunk : ℤ) = i := ediv_getBitIndex i
  have hpos : (0 : ℤ) < L.bitsInChunk := by exact_mod_cast L.bitsInChunk_pos
  have hstart : 0 ≤ L.getBitIndex i := Int.mul_nonneg hnonneg hpos.le
  have hsize : L.getBitIndex i < v.numChunks * L.bitsInChunk := lt_size_iff.2 (by omega)
  have hbound := h.size_lt
  have hplace : L.getBitIndex i % (L.bitsInChunk : ℤ) = 0 := Int.mul_emod_left _ _
  have hmask : L.getBitMask 0 = L.getBitMask (L.getBitIndex i) := by
    unfold Layout.getBitMask Layout.position Layout.getIndexInChunk
    rw [hplace, Int.zero_emod]
  rw [toInt32_of_lt (by omega) (by omega), hmask]
  refine h.findBit_isNextBit hstart (fun k hk _ => ?_) ?_
  · rw [bit, hk, hchunk]
  · obtain ⟨k, hk, hbit⟩ := exists_hasBit hi i
    have hsplit := L.ediv_add_emod k
    have hmod := L.indexInChunk_nonneg k
    rw [hk, Int.mul_comm] at hsplit
    refine ⟨k, by omega, by rw [Layout.getBitIndex]; omega, ?_⟩
    rw [bit, hk]
    exact hbit

/-- Nothing between two indices may be skipped. -/
theorem IsNextBit.extend {m next : ℤ} (hnext : v.IsNextBit m next) (hle : n ≤ m)
    (hclear : ∀ j, n < j → j ≤ m → v.bit j = false) : v.IsNextBit n next := by
  refine ⟨hle.trans_lt hnext.lt, fun j hj hjlt => ?_, hnext.bit_or_end⟩
  by_cases hjm : j ≤ m
  · exact hclear j hj hjm
  · exact hnext.clear_between j (by omega) hjlt

/-- `getNextBit` goes to the next bit that is set. -/
theorem WellFormed.getNextBit_spec (h : v.WellFormed) (hn : -1 ≤ n)
    (hsize : n < v.numChunks * L.bitsInChunk) : v.IsNextBit n (v.getNextBit n) := by
  have hbound := h.size_lt
  obtain ⟨hlast, hlastlt⟩ := h.last_lt
  have hcur : toInt32 (n + 1) = n + 1 := toInt32_of_lt (by omega) (by omega)
  have hend : toInt32 (L.getBitIndex v.numChunks) = v.numChunks * L.bitsInChunk :=
    toInt32_of_lt (by rw [Layout.getBitIndex]; omega) hbound
  have hpred : n + 1 - 1 = n := by omega
  have hrest (htmp : v.chunks ((n + 1) / L.bitsInChunk) &&&
      L.getBitMasks (n + 1) (L.bitsInChunk - 1) = 0) (k : ℤ)
      (hk : k / (L.bitsInChunk : ℤ) = (n + 1) / L.bitsInChunk) (hle : n + 1 ≤ k) :
      v.bit k = false :=
    Bool.eq_false_iff.2 fun hbit => tmpChunk_ne_zero_iff.2 ⟨k, hk, hle, hbit⟩ htmp
  unfold getNextBit
  dsimp only
  rw [hcur, hend, h.getChunkIndex_eq (n := n + 1) (by omega) (by omega)]
  split_ifs with hbehind hfull htmp hlastchunk
  · refine ⟨hsize, fun j hj hjlt => h.bit_eq_false_of_last ?_, .inr rfl⟩
    have := ediv_le_ediv (L := L) (show n + 1 ≤ j by omega)
    omega
  · refine ⟨by omega, fun j hj hjlt => by omega, .inl ?_⟩
    rw [bit, hfull, Layout.hasBit, BitVec.getLsbD_allOnes, decide_eq_true (L.position_lt _)]
  · refine ⟨hsize, fun j hj hjlt => ?_, .inr rfl⟩
    rcases Int.lt_or_eq_of_le (ediv_le_ediv (L := L) (show n + 1 ≤ j by omega)) with hlater | heq
    · exact h.bit_eq_false_of_last (by omega)
    · exact hrest htmp j heq.symm (by omega)
  · have hnonneg : 0 ≤ (n + 1) / (L.bitsInChunk : ℤ) := ediv_nonneg_iff.2 (by omega)
    obtain ⟨hge, hle, hbefore, hend⟩ := scanUp_spec v.chunks
      (v.lastChunkWithNonZero - (n + 1) / (L.bitsInChunk : ℤ) - 1).toNat
      ((n + 1) / (L.bitsInChunk : ℤ) + 1)
    generalize scanUp v.chunks ((n + 1) / (L.bitsInChunk : ℤ) + 1)
      (v.lastChunkWithNonZero - (n + 1) / (L.bitsInChunk : ℤ) - 1).toNat = i
      at hge hle hbefore hend ⊢
    have hi : v.chunks i ≠ 0 := by
      rcases Int.lt_or_eq_of_le hle with hlt | heq
      · exact hend hlt
      · have hieq : i = v.lastChunkWithNonZero := by omega
        rw [hieq]
        exact h.last_ne_zero (by omega)
    have hstart : n < L.getBitIndex i := by
      have hsplit := L.ediv_add_emod (n + 1)
      have hlt : n + 1 < i * L.bitsInChunk :=
        (Int.ediv_lt_iff_lt_mul (by exact_mod_cast L.bitsInChunk_pos)).1 (by omega)
      rw [Layout.getBitIndex]
      omega
    refine (h.findBit_chunk hi).extend (by omega) fun j hj hjle => ?_
    have hjlt : j / (L.bitsInChunk : ℤ) < i :=
      (Int.ediv_lt_iff_lt_mul (by exact_mod_cast L.bitsInChunk_pos)).2 (by
        rw [Layout.getBitIndex] at hjle
        omega)
    rcases Int.lt_or_eq_of_le (ediv_le_ediv (L := L) (show n + 1 ≤ j by omega)) with hlater | heq
    · exact bit_eq_false_of_chunk (hbefore _ (by omega) hjlt) rfl
    · exact hrest htmp j heq.symm (by omega)
  · have hfound := h.findBit_isNextBit (show 0 ≤ n + 1 by omega)
      (fun k hk hle => hasBit_tmpChunk hk hle) (tmpChunk_ne_zero_iff.1 htmp)
    rw [hpred] at hfound
    exact hfound

/-! ### What the iterator goes over -/

/-- The indices from `low` on whose bits are set. -/
def members (v : BitVector L) (low : ℤ) : List ℤ :=
  (countUp low (v.numChunks * L.bitsInChunk)).filter v.bit

theorem mem_members (h : v.WellFormed) : n ∈ v.members 0 ↔ v.bit n = true := by
  rw [members, List.mem_filter, mem_countUp]
  exact ⟨fun hmem => hmem.2, fun hbit => ⟨h.bit_bounds hbit, hbit⟩⟩

theorem length_members_le (v : BitVector L) :
    (v.members 0).length ≤ (v.numChunks * L.bitsInChunk).toNat := by
  refine (List.length_filter_le _ _).trans ?_
  rw [countUp_eq_map, List.length_map, List.length_range, Int.sub_zero]

theorem members_pairwise (v : BitVector L) (low : ℤ) : (v.members low).Pairwise (· < ·) :=
  (countUp_pairwise _ _).filter _

theorem filter_countUp_eq_nil {low high : ℤ}
    (hclear : ∀ j, low ≤ j → j < high → v.bit j = false) :
    (countUp low high).filter v.bit = [] := by
  refine List.filter_eq_nil_iff.2 fun j hj => ?_
  obtain ⟨hle, hlt⟩ := mem_countUp.1 hj
  rw [hclear j hle hlt]
  exact Bool.false_ne_true

/-- The members behind an index begin with the next bit. -/
theorem IsNextBit.members {next : ℤ} (hnext : v.IsNextBit n next)
    (hlt : next < v.numChunks * L.bitsInChunk) :
    v.members (n + 1) = next :: v.members (next + 1) := by
  have hbit : v.bit next = true := by
    rcases hnext.bit_or_end with hbit | hend
    · exact hbit
    · omega
  have hn := hnext.lt
  rw [BitVector.members, countUp_append (m := next) (by omega) hlt.le, List.filter_append,
    filter_countUp_eq_nil fun j hj hjlt => hnext.clear_between j (by omega) hjlt, List.nil_append,
    countUp_cons hlt, List.filter_cons_of_pos hbit, BitVector.members]

theorem IsNextBit.members_end (hnext : v.IsNextBit n (v.numChunks * L.bitsInChunk)) :
    v.members (n + 1) = [] :=
  filter_countUp_eq_nil fun j hj hjlt => hnext.clear_between j (by omega) hjlt

theorem IsNextBit.le_size (h : v.WellFormed) {next : ℤ} (hnext : v.IsNextBit n next) :
    next ≤ v.numChunks * L.bitsInChunk := by
  rcases hnext.bit_or_end with hbit | rfl
  · exact (h.bit_bounds hbit).2.le
  · exact le_rfl

theorem WellFormed.hasMoreElements_iff (h : v.WellFormed) (hn : 0 ≤ n)
    (hsize : n ≤ v.numChunks * L.bitsInChunk) :
    v.hasMoreElements n = true ↔ n < v.numChunks * L.bitsInChunk := by
  rw [hasMoreElements, h.getChunkIndex_eq hn hsize, decide_eq_true_eq, lt_size_iff]

/-- A loop over what is left of an iterator; `none` if `fuel` rounds are not enough. -/
def forElements {State : Type} (v : BitVector L) (body : State → ℤ → State) (curIndex : ℤ)
    (s : State) : ℕ → Option State
  | 0 => none
  | fuel + 1 =>
    if v.hasMoreElements curIndex then
      v.forElements body (v.getNextBit curIndex) (body s curIndex) fuel
    else some s

/-- The loop ends, and it has gone over the members in their order. -/
theorem WellFormed.forElements_eq (h : v.WellFormed) {State : Type} (body : State → ℤ → State)
    {s : State} {fuel : ℕ} (hn : -1 ≤ n) (hsize : n < v.numChunks * L.bitsInChunk)
    (hfuel : (v.members (n + 1)).length < fuel) :
    v.forElements body (v.getNextBit n) s fuel = some ((v.members (n + 1)).foldl body s) := by
  induction fuel generalizing n s with
  | zero => omega
  | succ fuel ih =>
    have hnext := h.getNextBit_spec hn hsize
    have hlt := hnext.lt
    have hle := hnext.le_size h
    have hmore := h.hasMoreElements_iff (n := v.getNextBit n) (by omega) hle
    rw [forElements]
    rcases Int.lt_or_eq_of_le hle with hinside | hend
    · rw [hnext.members hinside, List.length_cons] at hfuel
      rw [if_pos (hmore.2 hinside), hnext.members hinside, List.foldl_cons]
      exact ih (by omega) hinside (by omega)
    · rw [if_neg fun htrue => (hmore.1 htrue).ne hend]
      rw [hend] at hnext
      rw [hnext.members_end, List.foldl_nil]

/-- Each call of `getNextElement` takes one member away. -/
theorem WellFormed.iterate_getNextBit (h : v.WellFormed) {k : ℕ} (hn : -1 ≤ n)
    (hsize : n < v.numChunks * L.bitsInChunk) (hk : k ≤ (v.members (n + 1)).length) :
    ∃ m, -1 ≤ m ∧ m < v.numChunks * L.bitsInChunk ∧
      v.getNextBit^[k] (v.getNextBit n) = v.getNextBit m ∧
      v.members (m + 1) = (v.members (n + 1)).drop k := by
  induction k generalizing n with
  | zero => exact ⟨n, hn, hsize, rfl, rfl⟩
  | succ k ih =>
    have hnext := h.getNextBit_spec hn hsize
    have hlt := hnext.lt
    rcases Int.lt_or_eq_of_le (hnext.le_size h) with hinside | hend
    · rw [hnext.members hinside, List.length_cons] at hk
      rw [Function.iterate_succ_apply, hnext.members hinside, List.drop_succ_cons]
      exact ih (by omega) hinside (by omega)
    · rw [hend] at hnext
      rw [hnext.members_end, List.length_nil] at hk
      omega

/-! ### The number of elements -/

theorem bitsInByte_eq (b : BitVec 8) : bitsInByte.getD b.toNat 0 = popCount b := by
  have htable : ∀ n < 256, bitsInByte.getD n 0 = popCount (BitVec.ofNat 8 n) := by decide +kernel
  rw [htable b.toNat b.isLt, BitVec.ofNat_toNat, BitVec.setWidth_eq]

theorem bitsInChunkBytes_eq (c : L.Chunk) : bitsInChunkBytes L c = popCount c := by
  have hwidth : L.bitsInChunk = 8 * (L.bitsInChunk / 8) := by
    unfold Layout.bitsInChunk Layout.shift
    split <;> rfl
  rw [bitsInChunkBytes]
  split_ifs with hzero
  · rw [popCount_eq_sum_bytes c hwidth]
    exact congrArg List.sum (List.map_congr_left fun k _ => bitsInByte_eq _)
  · rw [not_not.1 hzero]
    exact (Finset.sum_eq_zero fun k _ => congrArg Bool.toNat BitVec.getLsbD_zero).symm

theorem countP_range (p : ℕ → Bool) (n : ℕ) :
    (List.range n).countP p = ∑ k ∈ Finset.range n, (p k).toNat := by
  induction n with
  | zero => rfl
  | succ n ih =>
    rw [List.range_succ, List.countP_append, ih, Finset.sum_range_succ, List.countP_singleton]
    cases p n <;> rfl

theorem emod_of_offset {i : ℤ} {k : ℕ} (hk : k < L.bitsInChunk) :
    (i * L.bitsInChunk + k) % (L.bitsInChunk : ℤ) = k := by
  rw [Int.mul_comm, Int.mul_add_emod_self_left, Int.emod_eq_of_lt (by omega) (by omega)]

/-- The bits of a chunk are counted whichever way they are numbered. -/
theorem length_filter_chunk (v : BitVector L) (i : ℤ) :
    ((countUp (i * L.bitsInChunk) ((i + 1) * L.bitsInChunk)).filter v.bit).length =
      popCount (v.chunks i) := by
  have hwidth : ((i + 1) * (L.bitsInChunk : ℤ) - i * L.bitsInChunk).toNat = L.bitsInChunk := by
    rw [Int.add_mul, Int.one_mul, add_sub_cancel_left, Int.toNat_natCast]
  rw [countUp_eq_map, hwidth, ← List.countP_eq_length_filter, List.countP_map, countP_range,
    popCount]
  have hpos : (0 : ℤ) < L.bitsInChunk := by exact_mod_cast L.bitsInChunk_pos
  have hbit (k : ℕ) (hk : k < L.bitsInChunk) :
      (v.bit ∘ fun k : ℕ => i * (L.bitsInChunk : ℤ) + k) k = (v.chunks i).getLsbD
        (if L.bitNumberingMsb then L.bitsInChunk - 1 - k else k) := by
    have hchunk : (i * L.bitsInChunk + k) / (L.bitsInChunk : ℤ) = i := by
      have hsplit := L.ediv_add_emod (i * L.bitsInChunk + k)
      rw [emod_of_offset hk] at hsplit
      exact Int.eq_of_mul_eq_mul_left hpos.ne'
        ((add_right_cancel hsplit).trans (Int.mul_comm _ _))
    rw [Function.comp_apply, bit, hchunk, Layout.hasBit, Layout.position,
      Layout.getIndexInChunk, emod_of_offset hk, Int.toNat_natCast]
  rw [Finset.sum_congr rfl fun k hk => congrArg Bool.toNat (hbit k (Finset.mem_range.1 hk))]
  cases L.bitNumberingMsb with
  | true => exact Finset.sum_range_reflect (fun k => ((v.chunks i).getLsbD k).toNat) _
  | false => rfl

/-- The counting loop adds up the members of its chunks. -/
theorem countChunks_eq (v : BitVector L) {count i : ℤ} {fuel : ℕ} (hcount : 0 ≤ count)
    (hlt : count + ((countUp (i * L.bitsInChunk) ((i + fuel) * L.bitsInChunk)).filter v.bit).length
      < 2 ^ 31) :
    countChunks (fun i => bitsInChunkBytes L (v.chunks i)) count i fuel =
      count + ((countUp (i * L.bitsInChunk) ((i + fuel) * L.bitsInChunk)).filter v.bit).length := by
  have hpos : (0 : ℤ) < L.bitsInChunk := by exact_mod_cast L.bitsInChunk_pos
  induction fuel generalizing count i with
  | zero => rw [countChunks, countUp_of_le (by simp), List.filter_nil, List.length_nil]; simp
  | succ fuel ih =>
    have hsplit : countUp (i * L.bitsInChunk) ((i + (fuel + 1 : ℕ)) * L.bitsInChunk) =
        countUp (i * L.bitsInChunk) ((i + 1) * L.bitsInChunk) ++
          countUp ((i + 1) * L.bitsInChunk) ((i + 1 + fuel) * L.bitsInChunk) := by
      have hend : i + (fuel + 1 : ℕ) = i + 1 + fuel := by push_cast; omega
      rw [hend]
      exact countUp_append (Int.mul_le_mul_of_nonneg_right (by omega) hpos.le)
        (Int.mul_le_mul_of_nonneg_right (by omega) hpos.le)
    rw [hsplit, List.filter_append, List.length_append, length_filter_chunk] at hlt ⊢
    push_cast at hlt ⊢
    rw [countChunks, bitsInChunkBytes_eq, toInt32_of_lt (by omega) (by omega),
      ih (by omega) (by omega)]
    omega

/-- The members are those of the chunks that are not zero. -/
theorem members_eq_filter {low high : ℤ} (hlow : 0 ≤ low) (hle : low ≤ high + 1)
    (hhigh : high < v.numChunks) (hwithin : ∀ i, v.chunks i ≠ 0 → low ≤ i ∧ i ≤ high) :
    v.members 0 =
      (countUp (low * L.bitsInChunk) ((high + 1) * L.bitsInChunk)).filter v.bit := by
  have hpos : (0 : ℤ) < L.bitsInChunk := by exact_mod_cast L.bitsInChunk_pos
  have hstart : 0 ≤ low * (L.bitsInChunk : ℤ) := Int.mul_nonneg hlow hpos.le
  have hmid : low * (L.bitsInChunk : ℤ) ≤ (high + 1) * L.bitsInChunk :=
    Int.mul_le_mul_of_nonneg_right hle hpos.le
  have hlast : (high + 1) * (L.bitsInChunk : ℤ) ≤ v.numChunks * L.bitsInChunk :=
    Int.mul_le_mul_of_nonneg_right (by omega) hpos.le
  have hclear (j : ℤ) (hj : ¬(low ≤ j / L.bitsInChunk ∧ j / L.bitsInChunk ≤ high)) :
      v.bit j = false :=
    Bool.eq_false_iff.2 fun hbit => hj (hwithin _ (chunk_ne_zero_of_bit hbit))
  have hbefore : (countUp 0 (low * L.bitsInChunk)).filter v.bit = [] := by
    refine filter_countUp_eq_nil fun j _ hj => hclear j fun hin => ?_
    have := (Int.ediv_lt_iff_lt_mul hpos).2 hj
    omega
  have hafter : (countUp ((high + 1) * L.bitsInChunk)
      (v.numChunks * L.bitsInChunk)).filter v.bit = [] := by
    refine filter_countUp_eq_nil fun j hj _ => hclear j fun hin => ?_
    have := (Int.le_ediv_iff_mul_le hpos).2 hj
    omega
  rw [members, countUp_append hstart (hmid.trans hlast), countUp_append hmid hlast,
    List.filter_append, List.filter_append, hbefore, hafter, List.nil_append, List.append_nil]

/-- A count over the chunks that are not zero is that of all members. -/
theorem countChunks_members {low high : ℤ} (hsize : v.numChunks * L.bitsInChunk < 2 ^ 31)
    (hlow : 0 ≤ low) (hle : low ≤ high + 1) (hhigh : high < v.numChunks)
    (hwithin : ∀ i, v.chunks i ≠ 0 → low ≤ i ∧ i ≤ high) :
    countChunks (fun i => bitsInChunkBytes L (v.chunks i)) 0 low (high - low + 1).toNat =
      (v.members 0).length := by
  have hcount := length_members_le v
  have hend : low + ((high - low + 1).toNat : ℤ) = high + 1 := by omega
  rw [members_eq_filter hlow hle hhigh hwithin] at hcount ⊢
  rw [countChunks_eq v le_rfl (by rw [hend]; omega), hend, Int.zero_add]

/-- The number of elements is exact. -/
theorem WellFormed.elementCount_eq (h : v.WellFormed) :
    v.elementCount = (v.members 0).length := by
  rw [elementCount]
  rcases h.exact_chunks with ⟨hfirst, hlast, hzero⟩ | ⟨hfirst, hlast, hne, -, hwithin⟩
  · have hnil : v.members 0 = [] :=
      filter_countUp_eq_nil fun j _ _ => bit_eq_false_of_chunk (hzero _) rfl
    have hfuel : (v.lastChunkWithNonZero - v.firstChunkWithNonZero + 1).toNat = 0 := by
      have := h.numChunks_nonneg
      omega
    rw [hfuel, hnil]
    rfl
  · have hfirstlast := (h.chunk_bounds hne).2.2.1
    exact countChunks_members h.size_lt hfirst (by omega) hlast hwithin

end BitVector

end OMR.Compiler
