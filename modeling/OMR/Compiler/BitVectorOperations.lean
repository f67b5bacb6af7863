import OMR.Compiler.BitVectorBits

/-!
# The operations of a bit vector

What each operation of a `TR_BitVector` does to the set of its bits. All of them keep the first and
the last chunk that is not zero.
-/

namespace OMR.Compiler

namespace Layout

variable {L : Layout} {k : ℤ}

theorem zero_and (c : L.Chunk) : 0 &&& c = 0 := BitVec.zero_and

theorem and_zero (c : L.Chunk) : c &&& 0 = 0 := BitVec.and_zero

theorem and_not_zero (c : L.Chunk) : c &&& ~~~0 = c :=
  (congrArg (c &&& ·) BitVec.not_zero).trans BitVec.and_allOnes

theorem hasBit_orMasks (c : L.Chunk) (indices : List ℤ) :
    L.hasBit (L.orMasks c indices) k = (L.hasBit c k ||
      decide (∃ i ∈ indices, k % (L.bitsInChunk : ℤ) = i % L.bitsInChunk)) := by
  induction indices generalizing c with
  | nil => simp [orMasks]
  | cons i indices ih =>
    have hstep : L.orMasks c (i :: indices) = L.orMasks (c ||| L.getBitMask i) indices := rfl
    rw [hstep, ih, hasBit_or, hasBit_getBitMask, Bool.or_assoc]
    refine congrArg (L.hasBit c k || ·) ?_
    rw [Bool.eq_iff_iff]
    simp only [Bool.or_eq_true, decide_eq_true_eq, List.exists_mem_cons_iff]

end Layout

namespace BitVector

variable {L : Layout} {v v2 : BitVector L} {k m n : ℤ}

theorem Exact.chunks_within (h : v.Exact) {i : ℤ}
    (hi : ¬(v.firstChunkWithNonZero ≤ i ∧ i ≤ v.lastChunkWithNonZero)) : v.chunks i = 0 := by
  by_contra hne
  have := h.chunk_bounds hne
  omega

/-! ### Removing bits -/

/-- A vector with fewer bits whose first and last chunk still have some is exact. -/
theorem Exact.shrink (h : v.Exact) {chunks : ℤ → L.Chunk}
    (hfirst : chunks v.firstChunkWithNonZero ≠ 0) (hlast : chunks v.lastChunkWithNonZero ≠ 0)
    (hsub : ∀ i, chunks i ≠ 0 → v.chunks i ≠ 0) : ({ v with chunks := chunks } : BitVector L).Exact := by
  have hbounds := h.chunk_bounds (hsub _ hlast)
  exact ⟨h.numChunks_nonneg, .inr ⟨(h.chunk_bounds (hsub _ hfirst)).1, hbounds.2.2.2, hfirst, hlast,
    fun i hi => (h.chunk_bounds (hsub i hi)).2.imp_right And.left⟩⟩

/-- A vector with fewer bits is exact when its first and last chunk are looked for again. -/
theorem Exact.shrinkLowAndHigh (h : v.Exact) {chunks : ℤ → L.Chunk}
    (hlast : 0 ≤ v.lastChunkWithNonZero) (hsub : ∀ i, chunks i ≠ 0 → v.chunks i ≠ 0) :
    (({ v with chunks := chunks } : BitVector L).resetLowAndHighChunks v.firstChunkWithNonZero
      v.lastChunkWithNonZero).Exact :=
  exact_resetLowAndHighChunks h.numChunks_nonneg (h.first_ne_zero hlast).1 h.last_lt.2
    fun i hi => (h.chunk_bounds (hsub i hi)).2.imp_right And.left

/-- The chunks of `reset`. -/
theorem hasBit_resetChunk (chunks : ℤ → L.Chunk) (n k : ℤ) :
    L.hasBit (onChunks (n / L.bitsInChunk) (n / L.bitsInChunk)
        (fun _ c => c &&& ~~~L.getBitMask n) chunks (k / L.bitsInChunk)) k =
      (L.hasBit (chunks (k / L.bitsInChunk)) k && !decide (k = n)) := by
  rw [onChunks_apply]
  by_cases hchunk : k / (L.bitsInChunk : ℤ) = n / L.bitsInChunk
  · have hk := L.ediv_add_emod k
    have hn := L.ediv_add_emod n
    rw [hchunk] at hk
    rw [if_pos ⟨hchunk.ge, hchunk.le⟩, Layout.hasBit_and, Layout.hasBit_not,
      Layout.hasBit_getBitMask]
    refine congrArg (fun same => L.hasBit _ k && !same) (decide_eq_decide.2 ?_)
    exact ⟨fun heq => by omega, fun heq => by rw [heq]⟩
  · have hne : k ≠ n := fun heq => hchunk (by rw [heq])
    rw [if_neg fun hin => hchunk (le_antisymm hin.2 hin.1), decide_eq_false hne, Bool.not_false,
      Bool.and_true]

theorem resetChunk_ne_zero {chunks : ℤ → L.Chunk} {i : ℤ}
    (hi : onChunks (n / L.bitsInChunk) (n / L.bitsInChunk)
      (fun _ c => c &&& ~~~L.getBitMask n) chunks i ≠ 0) : chunks i ≠ 0 := by
  obtain ⟨k, rfl, hbit⟩ := exists_hasBit hi i
  rw [hasBit_resetChunk] at hbit
  intro hzero
  rw [hzero, Layout.hasBit_zero, Bool.false_and] at hbit
  exact Bool.noConfusion hbit

/-- A bit that is not there need not be taken away. -/
theorem bit_and_ne (hn : v.bit n = false) (k : ℤ) : v.bit k = (v.bit k && !decide (k = n)) := by
  by_cases hkn : k = n
  · rw [hkn, hn, Bool.false_and]
  · rw [decide_eq_false hkn, Bool.not_false, Bool.and_true]

theorem Exact.bit_reset (h : v.Exact) (hn : L.getChunkIndex n = n / L.bitsInChunk) (k : ℤ) :
    (v.reset n true).bit k = (v.bit k && !decide (k = n)) := by
  rw [BitVector.reset, hn]
  dsimp only
  split_ifs with hout hne hempty
  · refine bit_and_ne (bit_eq_false_of_chunk (h.chunks_within ?_) rfl) k
    omega
  · rw [bit_resetLowAndHighChunks]
    exact hasBit_resetChunk v.chunks n k
  · exact hasBit_resetChunk v.chunks n k
  · exact bit_and_ne (bit_eq_false_of_chunk (not_not.1 hne) rfl) k

theorem Exact.reset (h : v.Exact) (hn : L.getChunkIndex n = n / L.bitsInChunk) :
    (v.reset n true).Exact := by
  rw [BitVector.reset, hn]
  dsimp only
  split_ifs with hout hne hempty
  · exact h
  · exact h.shrinkLowAndHigh (((h.chunk_bounds hne).1).trans (h.chunk_bounds hne).2.2.1)
      fun i hi => resetChunk_ne_zero hi
  · have hlast := ((h.chunk_bounds hne).1).trans (h.chunk_bounds hne).2.2.1
    have hleft (i : ℤ) (hi : v.chunks i ≠ 0) : onChunks (n / L.bitsInChunk) (n / L.bitsInChunk)
        (fun _ c => c &&& ~~~L.getBitMask n) v.chunks i ≠ 0 := by
      by_cases hin : i = n / L.bitsInChunk
      · rw [hin]
        exact fun hzero => hempty ⟨rfl, hzero⟩
      · rw [onChunks_apply, if_neg fun hbetween => hin (le_antisymm hbetween.2 hbetween.1)]
        exact hi
    exact h.shrink (hleft _ (h.first_ne_zero hlast).2) (hleft _ (h.last_ne_zero hlast))
      fun i hi => resetChunk_ne_zero hi
  · exact h

theorem Exact.bit_empty (h : v.Exact) (k : ℤ) : v.empty.bit k = false := by
  rw [empty, bit]
  dsimp only
  rw [onChunks_apply]
  split_ifs with hin
  · exact Layout.hasBit_zero k
  · rw [h.chunks_within hin]
    exact Layout.hasBit_zero k

theorem Exact.empty (h : v.Exact) : v.empty.Exact := by
  refine ⟨h.numChunks_nonneg, .inl ⟨rfl, rfl, fun i => ?_⟩⟩
  by_contra hne
  obtain ⟨k, -, hbit⟩ := chunk_ne_zero_iff_bit.1 hne
  rw [h.bit_empty] at hbit
  exact Bool.noConfusion hbit

/-! ### Operations with a second vector -/

theorem Exact.bit_orAssign (h : v.Exact) (h2 : v2.Exact) (k : ℤ) :
    (v.orAssign v2).bit k = (v.bit k || v2.bit k) := by
  rw [orAssign]
  split_ifs with hempty
  · rw [h2.bit_of_empty hempty, Bool.or_false]
  · rw [h.growTo_eq, bit]
    dsimp only
    rw [onChunks_apply]
    split_ifs with hin
    · exact Layout.hasBit_or _ _ _
    · rw [bit_eq_false_of_chunk (h2.chunks_within hin) rfl, Bool.or_false]
      rfl

theorem Exact.orAssign (h : v.Exact) (h2 : v2.Exact) : (v.orAssign v2).Exact := by
  have hbit := h.bit_orAssign h2
  by_cases hempty : v2.lastChunkWithNonZero < 0
  · have hself : v.orAssign v2 = v := if_pos hempty
    rw [hself]
    exact h
  obtain ⟨hlast, hlastlt⟩ := h.last_lt
  obtain ⟨-, hlastlt2⟩ := h2.last_lt
  obtain ⟨hfirst2, hfirst2ne⟩ := h2.first_ne_zero (not_lt.1 hempty)
  have hbounds2 := h2.chunk_bounds hfirst2ne
  obtain ⟨first2, hfirst2, hfirst2bit⟩ := h2.exists_first (not_lt.1 hempty)
  obtain ⟨last2, hlast2, hlast2bit⟩ := h2.exists_last (not_lt.1 hempty)
  refine h.extend hbounds2.1 hbounds2.2.2.1 ?_ ?_ ?_ ?_
    ⟨first2, hfirst2, by rw [hbit, hfirst2bit, Bool.or_true]⟩
    ⟨last2, hlast2, by rw [hbit, hlast2bit, Bool.or_true]⟩ (fun k hk => ?_) fun k hk => ?_
  · rw [BitVector.orAssign, if_neg hempty, h.growTo_eq]
    exact le_max_left _ _
  · rw [BitVector.orAssign, if_neg hempty, h.growTo_eq]
    exact hlastlt2.trans_le (le_max_right _ _)
  · rw [BitVector.orAssign, if_neg hempty, h.growTo_eq, BitVector.resized]
    dsimp only
    split_ifs <;> omega
  · rw [BitVector.orAssign, if_neg hempty, h.growTo_eq, BitVector.resized]
    dsimp only
    split_ifs <;> omega
  · rw [hbit, hk, Bool.true_or]
  · rw [hbit, Bool.or_eq_true] at hk
    exact hk.imp_right fun hk => (h2.bit_chunk hk).2.imp_right And.left

/-- `operator=`. -/
theorem Exact.bit_assign (h : v.Exact) (h2 : v2.Exact) (k : ℤ) : (v.assign v2).bit k = v2.bit k := by
  rw [assign, h.growTo_eq]
  have hgrown := h.resized (le_max_left v.numChunks v2.numChunks)
  generalize v.resized (max v.numChunks v2.numChunks) = w at hgrown
  dsimp only
  split_ifs with hempty
  · rw [hgrown.bit_empty, h2.bit_of_empty hempty]
  · have hchunk : onChunks (v2.lastChunkWithNonZero + 1) w.lastChunkWithNonZero (fun _ _ => 0)
        (onChunks v2.firstChunkWithNonZero v2.lastChunkWithNonZero (fun i _ => v2.chunks i)
          (onChunks w.firstChunkWithNonZero (v2.firstChunkWithNonZero - 1) (fun _ _ => 0)
            w.chunks)) (k / L.bitsInChunk) = v2.chunks (k / L.bitsInChunk) := by
      rw [onChunks_apply, onChunks_apply, onChunks_apply]
      by_cases hin : v2.firstChunkWithNonZero ≤ k / L.bitsInChunk ∧
          k / L.bitsInChunk ≤ v2.lastChunkWithNonZero
      · rw [if_neg (by omega), if_pos hin]
      · rw [h2.chunks_within hin]
        split_ifs
        · rfl
        · rfl
        · exact hgrown.chunks_within (by omega)
    exact congrArg (L.hasBit · k) hchunk

theorem Exact.assign (h : v.Exact) (h2 : v2.Exact) : (v.assign v2).Exact := by
  have hbit := h.bit_assign h2
  have hgrown := h.resized (le_max_left v.numChunks v2.numChunks)
  by_cases hempty : v2.lastChunkWithNonZero < 0
  · have heq : v.assign v2 = (v.resized (max v.numChunks v2.numChunks)).empty := by
      rw [BitVector.assign, h.growTo_eq]
      exact if_pos hempty
    rw [heq]
    exact hgrown.empty
  · have hnum : (v.assign v2).numChunks = max v.numChunks v2.numChunks := by
      rw [BitVector.assign, h.growTo_eq, if_neg hempty]
      rfl
    have hfirst : (v.assign v2).firstChunkWithNonZero = v2.firstChunkWithNonZero := by
      rw [BitVector.assign, if_neg hempty]
    have hlast : (v.assign v2).lastChunkWithNonZero = v2.lastChunkWithNonZero := by
      rw [BitVector.assign, if_neg hempty]
    obtain ⟨first, hfirst2, hfirstbit⟩ := h2.exists_first (not_lt.1 hempty)
    obtain ⟨last, hlast2, hlastbit⟩ := h2.exists_last (not_lt.1 hempty)
    refine exact_of_bits ?_ ?_ ?_ ⟨first, ?_, ?_⟩ ⟨last, ?_, ?_⟩ fun k hk => ?_
    · rw [hnum]
      exact h.numChunks_nonneg.trans (le_max_left _ _)
    · rw [hfirst]
      exact (h2.first_ne_zero (not_lt.1 hempty)).1
    · rw [hlast, hnum]
      exact h2.last_lt.2.trans_le (le_max_right _ _)
    · rw [hfirst, hfirst2]
    · rw [hbit, hfirstbit]
    · rw [hlast, hlast2]
    · rw [hbit, hlastbit]
    · rw [hbit] at hk
      rw [hfirst, hlast]
      exact (h2.bit_chunk hk).2.imp_right And.left

theorem resetLowAndHighChunks_congr {chunks chunks' : ℤ → L.Chunk} {low low' high high' : ℤ}
    (hlow : low = low') (hhigh : high = high') (hchunks : ∀ i, chunks i = chunks' i) :
    ({ v with chunks := chunks } : BitVector L).resetLowAndHighChunks low high =
      ({ v with chunks := chunks' } : BitVector L).resetLowAndHighChunks low' high' := by
  rw [hlow, hhigh, funext hchunks]

/-- `operator&=`, for vectors whose ranges of chunks meet. -/
theorem Exact.andAssign_eq (h : v.Exact) (h2 : v2.Exact) (hlast : 0 ≤ v.lastChunkWithNonZero)
    (hmeet : ¬(v2.lastChunkWithNonZero < v.firstChunkWithNonZero ∨
      v2.firstChunkWithNonZero > v.lastChunkWithNonZero)) :
    v.andAssign v2 =
      ({ v with chunks := fun i => v.chunks i &&& v2.chunks i } :
        BitVector L).resetLowAndHighChunks (max v.firstChunkWithNonZero v2.firstChunkWithNonZero)
        (min v.lastChunkWithNonZero v2.lastChunkWithNonZero) := by
  rw [andAssign, if_neg (by omega), if_neg hmeet]
  have hcases (i : ℤ) : v.chunks i = 0 ∨ v2.chunks i = 0 ∧
      (v.firstChunkWithNonZero ≤ i ∧ i ≤ v.lastChunkWithNonZero) ∨
      (v.firstChunkWithNonZero ≤ i ∧ i ≤ v.lastChunkWithNonZero) ∧
        v2.firstChunkWithNonZero ≤ i ∧ i ≤ v2.lastChunkWithNonZero := by
    by_cases hv : v.chunks i = 0
    · exact .inl hv
    · have hin := (h.chunk_bounds hv).2.imp_right And.left
      by_cases hv2 : v2.chunks i = 0
      · exact .inr (.inl ⟨hv2, hin⟩)
      · exact .inr (.inr ⟨hin, (h2.chunk_bounds hv2).2.imp_right And.left⟩)
  split_ifs with hlow hhigh hhigh
  all_goals
    refine resetLowAndHighChunks_congr (by omega) (by omega) fun i => ?_
    rcases hcases i with hv | ⟨hv2, hin⟩ | ⟨hin, hin2⟩
    · simp only [onChunks_apply, hv, ite_self, Layout.zero_and]
    · simp only [onChunks_apply, hv2, Layout.and_zero]
      split_ifs <;> first | rfl | omega
    · simp only [onChunks_apply]
      split_ifs <;> first | rfl | omega

theorem Exact.bit_andAssign (h : v.Exact) (h2 : v2.Exact) (k : ℤ) :
    (v.andAssign v2).bit k = (v.bit k && v2.bit k) := by
  by_cases hempty : v.lastChunkWithNonZero < 0
  · rw [andAssign, if_pos hempty, h.bit_of_empty hempty, Bool.false_and]
  by_cases hmeet : v2.lastChunkWithNonZero < v.firstChunkWithNonZero ∨
      v2.firstChunkWithNonZero > v.lastChunkWithNonZero
  · rw [andAssign, if_neg hempty, if_pos hmeet, h.bit_empty]
    refine (Bool.eq_false_iff.2 fun hboth => ?_).symm
    rw [Bool.and_eq_true] at hboth
    have := h.bit_chunk hboth.1
    have := h2.bit_chunk hboth.2
    omega
  · rw [h.andAssign_eq h2 (not_lt.1 hempty) hmeet, bit_resetLowAndHighChunks]
    exact Layout.hasBit_and _ _ _

theorem Exact.andAssign (h : v.Exact) (h2 : v2.Exact) : (v.andAssign v2).Exact := by
  by_cases hempty : v.lastChunkWithNonZero < 0
  · rw [BitVector.andAssign, if_pos hempty]
    exact h
  by_cases hmeet : v2.lastChunkWithNonZero < v.firstChunkWithNonZero ∨
      v2.firstChunkWithNonZero > v.lastChunkWithNonZero
  · rw [BitVector.andAssign, if_neg hempty, if_pos hmeet]
    exact h.empty
  · have hfirst := (h.first_ne_zero (not_lt.1 hempty)).1
    have hlast := h.last_lt.2
    rw [h.andAssign_eq h2 (not_lt.1 hempty) hmeet]
    refine exact_resetLowAndHighChunks h.numChunks_nonneg (hfirst.trans (le_max_left _ _))
      ((min_le_left _ _).trans_lt hlast) fun i hi => ?_
    have hv : v.chunks i ≠ 0 := fun hzero => hi (by
      dsimp only
      rw [hzero, Layout.zero_and])
    have hv2 : v2.chunks i ≠ 0 := fun hzero => hi (by
      dsimp only
      rw [hzero, Layout.and_zero])
    have := h.chunk_bounds hv
    have := h2.chunk_bounds hv2
    omega

theorem commonChunks_eq : v.commonChunks v2 =
    (max v.firstChunkWithNonZero v2.firstChunkWithNonZero,
      min v.lastChunkWithNonZero v2.lastChunkWithNonZero) := by
  rw [commonChunks]
  refine Prod.ext ?_ ?_ <;> dsimp only <;> split_ifs <;> omega

/-- `operator-=`, for vectors whose ranges of chunks meet. -/
theorem Exact.subAssign_eq (h : v.Exact) (h2 : v2.Exact) (hlast : 0 ≤ v.lastChunkWithNonZero)
    (hmeet : ¬(v2.lastChunkWithNonZero < v.firstChunkWithNonZero ∨
      v2.firstChunkWithNonZero > v.lastChunkWithNonZero)) :
    v.subAssign v2 =
      ({ v with chunks := fun i => v.chunks i &&& ~~~v2.chunks i } :
        BitVector L).resetLowAndHighChunks v.firstChunkWithNonZero v.lastChunkWithNonZero := by
  rw [subAssign, if_neg (by omega), if_neg hmeet]
  refine resetLowAndHighChunks_congr rfl rfl fun i => ?_
  rw [onChunks_apply, commonChunks_eq]
  split_ifs with hin
  · rfl
  · by_cases hv : v.chunks i = 0
    · rw [hv, Layout.zero_and]
    · have hbounds := h.chunk_bounds hv
      have hv2 : v2.chunks i = 0 := h2.chunks_within (by omega)
      rw [hv2, Layout.and_not_zero]

theorem Exact.bit_subAssign (h : v.Exact) (h2 : v2.Exact) (k : ℤ) :
    (v.subAssign v2).bit k = (v.bit k && !v2.bit k) := by
  by_cases hempty : v.lastChunkWithNonZero < 0
  · rw [subAssign, if_pos hempty, h.bit_of_empty hempty, Bool.false_and]
  by_cases hmeet : v2.lastChunkWithNonZero < v.firstChunkWithNonZero ∨
      v2.firstChunkWithNonZero > v.lastChunkWithNonZero
  · rw [subAssign, if_neg hempty, if_pos hmeet]
    cases hbit : v.bit k with
    | false => rfl
    | true =>
      have hv2 : v2.bit k = false := Bool.eq_false_iff.2 fun hbit2 => by
        have := h.bit_chunk hbit
        have := h2.bit_chunk hbit2
        omega
      rw [hv2]
      rfl
  · rw [h.subAssign_eq h2 (not_lt.1 hempty) hmeet, bit_resetLowAndHighChunks]
    exact (Layout.hasBit_and _ _ _).trans (congrArg (v.bit k && ·) (Layout.hasBit_not _ _))

theorem Exact.subAssign (h : v.Exact) (h2 : v2.Exact) : (v.subAssign v2).Exact := by
  by_cases hempty : v.lastChunkWithNonZero < 0
  · rw [BitVector.subAssign, if_pos hempty]
    exact h
  by_cases hmeet : v2.lastChunkWithNonZero < v.firstChunkWithNonZero ∨
      v2.firstChunkWithNonZero > v.lastChunkWithNonZero
  · rw [BitVector.subAssign, if_neg hempty, if_pos hmeet]
    exact h
  · rw [h.subAssign_eq h2 (not_lt.1 hempty) hmeet]
    refine h.shrinkLowAndHigh (not_lt.1 hempty) fun i hi hzero => hi ?_
    rw [hzero, Layout.zero_and]

/-! ### Setting a range of bits -/

/-- The chunks of `setAll(n)`. -/
theorem hasBit_setAllChunks (chunks : ℤ → L.Chunk) (hn : 0 < n) :
    L.hasBit (onChunks ((n - 1) / L.bitsInChunk) ((n - 1) / L.bitsInChunk)
        (fun _ c => L.orMasks c (countUp (L.getBitIndex ((n - 1) / L.bitsInChunk)) n))
        (onChunks 0 ((n - 1) / L.bitsInChunk - 1) (fun _ _ => BitVec.allOnes _) chunks)
        (k / L.bitsInChunk)) k =
      (L.hasBit (chunks (k / L.bitsInChunk)) k || decide (0 ≤ k ∧ k < n)) := by
  have hnonneg : 0 ≤ k / (L.bitsInChunk : ℤ) ↔ 0 ≤ k := ediv_nonneg_iff
  rw [onChunks_apply, onChunks_apply]
  rcases lt_trichotomy (k / (L.bitsInChunk : ℤ)) ((n - 1) / L.bitsInChunk) with hlt | heq | hgt
  · have hkn := Layout.lt_of_ediv_lt hlt
    rw [if_neg (by omega)]
    by_cases hk : 0 ≤ k
    · rw [if_pos (by omega), Layout.hasBit_allOnes, decide_eq_true (by omega), Bool.or_true]
    · rw [if_neg (by omega), decide_eq_false (by omega), Bool.or_false]
  · have hk : 0 ≤ k := hnonneg.1 (heq.symm ▸ ediv_nonneg_iff.2 (by omega))
    rw [if_pos (by omega), if_neg (by omega), Layout.hasBit_orMasks]
    refine congrArg (L.hasBit _ k || ·) (decide_eq_decide.2 ⟨?_, fun hkn => ?_⟩)
    · rintro ⟨i, hi, hplace⟩
      obtain ⟨hge, hlt⟩ := mem_countUp.1 hi
      have hle : (n - 1) / (L.bitsInChunk : ℤ) ≤ i / L.bitsInChunk := by
        rw [← ediv_getBitIndex (L := L) ((n - 1) / (L.bitsInChunk : ℤ))]
        exact ediv_le_ediv hge
      have hle' : i / (L.bitsInChunk : ℤ) ≤ (n - 1) / L.bitsInChunk := ediv_le_ediv (by omega)
      have hsplit := L.ediv_add_emod i
      have hksplit := L.ediv_add_emod k
      rw [le_antisymm hle' hle] at hsplit
      rw [heq, hplace] at hksplit
      omega
    · refine ⟨k, mem_countUp.2 ⟨?_, hkn.2⟩, rfl⟩
      have hksplit := L.ediv_add_emod k
      have hplace := L.indexInChunk_nonneg k
      rw [heq, Int.mul_comm] at hksplit
      rw [Layout.getBitIndex]
      omega
  · have hnk := Layout.lt_of_ediv_lt hgt
    rw [if_neg (by omega), if_neg (by omega), decide_eq_false (by omega), Bool.or_false]

theorem hasBit_firstMasks (c : L.Chunk) :
    L.hasBit (if L.getIndexInChunk m > 0 then L.orMasks c
        (countUp (L.getIndexInChunk m) L.bitsInChunk) else c ||| BitVec.allOnes _) k =
      (L.hasBit c k || decide (m % (L.bitsInChunk : ℤ) ≤ k % L.bitsInChunk)) := by
  have hk := L.indexInChunk_nonneg k
  have hklt := L.indexInChunk_lt k
  have hm := L.indexInChunk_nonneg m
  rw [Layout.getIndexInChunk]
  split_ifs with hpos
  · rw [Layout.hasBit_orMasks]
    refine congrArg (L.hasBit c k || ·) (decide_eq_decide.2 ⟨?_, fun hle => ?_⟩)
    · rintro ⟨i, hi, hplace⟩
      obtain ⟨hge, hlt⟩ := mem_countUp.1 hi
      rw [hplace, Int.emod_eq_of_lt (by omega) hlt]
      exact hge
    · exact ⟨_, mem_countUp.2 ⟨hle, hklt⟩, (Int.emod_emod _ _).symm⟩
  · rw [Layout.hasBit_or, Layout.hasBit_allOnes, decide_eq_true (by omega)]

theorem hasBit_lastMasks (c : L.Chunk) :
    L.hasBit (if L.getIndexInChunk n < L.bitsInChunk - 1 then
        L.orMasks c (countUp 0 (L.getIndexInChunk n + 1)).reverse
        else c ||| BitVec.allOnes _) k =
      (L.hasBit c k || decide (k % (L.bitsInChunk : ℤ) ≤ n % L.bitsInChunk)) := by
  have hk := L.indexInChunk_nonneg k
  have hklt := L.indexInChunk_lt k
  have hn := L.indexInChunk_lt n
  rw [Layout.getIndexInChunk]
  split_ifs with hlt
  · rw [Layout.hasBit_orMasks]
    refine congrArg (L.hasBit c k || ·) (decide_eq_decide.2 ⟨?_, fun hle => ?_⟩)
    · rintro ⟨i, hi, hplace⟩
      obtain ⟨hge, hile⟩ := mem_countUp.1 (List.mem_reverse.1 hi)
      rw [hplace, Int.emod_eq_of_lt hge (by omega)]
      omega
    · exact ⟨_, List.mem_reverse.2 (mem_countUp.2 ⟨hk, by omega⟩), (Int.emod_emod _ _).symm⟩
  · rw [Layout.hasBit_or, Layout.hasBit_allOnes, decide_eq_true (by omega)]

theorem hasBit_sameMasks (c : L.Chunk) :
    L.hasBit (L.orMasks c (countUp (L.getIndexInChunk m) (L.getIndexInChunk n + 1))) k =
      (L.hasBit c k || decide (m % (L.bitsInChunk : ℤ) ≤ k % L.bitsInChunk ∧
        k % (L.bitsInChunk : ℤ) ≤ n % L.bitsInChunk)) := by
  have hm := L.indexInChunk_nonneg m
  have hn := L.indexInChunk_lt n
  rw [Layout.hasBit_orMasks, Layout.getIndexInChunk, Layout.getIndexInChunk]
  refine congrArg (L.hasBit c k || ·) (decide_eq_decide.2 ⟨?_, fun hin => ?_⟩)
  · rintro ⟨i, hi, hplace⟩
    obtain ⟨hge, hlt⟩ := mem_countUp.1 hi
    have hself : i % (L.bitsInChunk : ℤ) = i := Int.emod_eq_of_lt (by omega) (by omega)
    omega
  · exact ⟨_, mem_countUp.2 ⟨hin.1, by omega⟩, (Int.emod_emod _ _).symm⟩

theorem Exact.bit_setAll (h : v.Exact) (hchunk : L.getChunkIndex (n - 1) = (n - 1) / L.bitsInChunk)
    (hindex : toInt32 (L.getBitIndex ((n - 1) / L.bitsInChunk)) =
      L.getBitIndex ((n - 1) / L.bitsInChunk)) (k : ℤ) :
    (v.setAll n).bit k = (v.bit k || decide (0 ≤ k ∧ k < n)) := by
  rw [setAll]
  split_ifs with hn
  · rw [decide_eq_false (by omega), Bool.or_false]
  · rw [hchunk]
    dsimp only
    rw [hindex, h.growFor_eq]
    exact hasBit_setAllChunks v.chunks (by omega)

theorem Exact.setAll (h : v.Exact) (hchunk : L.getChunkIndex (n - 1) = (n - 1) / L.bitsInChunk)
    (hindex : toInt32 (L.getBitIndex ((n - 1) / L.bitsInChunk)) =
      L.getBitIndex ((n - 1) / L.bitsInChunk)) : (v.setAll n).Exact := by
  have hbit := h.bit_setAll hchunk hindex
  by_cases hn : n ≤ 0
  · rw [BitVector.setAll, if_pos hn]
    exact h
  have hnonneg : 0 ≤ (n - 1) / (L.bitsInChunk : ℤ) := ediv_nonneg_iff.2 (by omega)
  obtain ⟨hlast, hlastlt⟩ := h.last_lt
  refine h.extend le_rfl hnonneg ?_ ?_ ?_ ?_ ⟨0, Int.zero_ediv _, ?_⟩ ⟨n - 1, rfl, ?_⟩
    (fun k hk => ?_) fun k hk => ?_
  · rw [BitVector.setAll, if_neg hn, hchunk]
    dsimp only
    rw [h.growFor_eq]
    exact le_max_left _ _
  · rw [BitVector.setAll, if_neg hn, hchunk]
    dsimp only
    rw [h.growFor_eq]
    exact (Int.lt_succ _).trans_le (le_max_right _ _)
  · rw [BitVector.setAll, if_neg hn]
    dsimp only
    split_ifs with hneg
    · rfl
    · exact (min_eq_right (h.first_ne_zero (not_lt.1 hneg)).1).symm
  · rw [BitVector.setAll, if_neg hn, hchunk]
    dsimp only
    rw [h.growFor_eq, BitVector.resized]
    dsimp only
    split_ifs <;> omega
  · rw [hbit, decide_eq_true (by omega), Bool.or_true]
  · rw [hbit, decide_eq_true (by omega), Bool.or_true]
  · rw [hbit, hk, Bool.true_or]
  · rw [hbit, Bool.or_eq_true, decide_eq_true_eq] at hk
    exact hk.imp_right fun hin => ⟨ediv_nonneg_iff.2 hin.1, ediv_le_ediv (by omega)⟩

theorem Exact.bit_setAllFrom (h : v.Exact) (hmn : m ≤ n)
    (hm : L.getChunkIndex m = m / L.bitsInChunk) (hn : L.getChunkIndex n = n / L.bitsInChunk)
    (k : ℤ) : (v.setAllFrom m n).bit k = (v.bit k || decide (m ≤ k ∧ k ≤ n)) := by
  have hle : m / (L.bitsInChunk : ℤ) ≤ n / L.bitsInChunk := ediv_le_ediv hmn
  rw [setAllFrom, hm, hn, h.growFor_eq]
  dsimp only
  by_cases hsame : m / (L.bitsInChunk : ℤ) = n / L.bitsInChunk
  · rw [if_pos hsame, bit]
    dsimp only
    rw [onChunks_apply]
    by_cases hchunk : k / (L.bitsInChunk : ℤ) = m / L.bitsInChunk
    · rw [if_pos ⟨hchunk.ge, hchunk.le⟩, hasBit_sameMasks]
      refine congrArg (v.bit k || ·) (decide_eq_decide.2 (and_congr ?_ ?_))
      · exact (Layout.le_iff_emod_le hchunk).symm
      · exact (Layout.le_iff_emod_le (hsame.symm.trans hchunk.symm)).symm
    · have hout : ¬(m ≤ k ∧ k ≤ n) := fun hin =>
        hchunk (le_antisymm ((ediv_le_ediv hin.2).trans hsame.ge) (ediv_le_ediv hin.1))
      rw [if_neg fun hin => hchunk (le_antisymm hin.2 hin.1), decide_eq_false hout, Bool.or_false]
      rfl
  · have hlt : m / (L.bitsInChunk : ℤ) < n / L.bitsInChunk := lt_of_le_of_ne hle hsame
    rw [if_neg hsame, bit]
    dsimp only
    rw [onChunks_apply, onChunks_apply, onChunks_apply]
    rcases lt_trichotomy (k / (L.bitsInChunk : ℤ)) (m / L.bitsInChunk) with hbefore | hfirst | hm
    · have hkm := Layout.lt_of_ediv_lt hbefore
      rw [if_neg (by omega), if_neg (by omega), if_neg (by omega), decide_eq_false (by omega),
        Bool.or_false]
      rfl
    · have hkn : k < n := Layout.lt_of_ediv_lt (hfirst.trans_lt hlt)
      rw [if_neg (by omega), if_neg (by omega), if_pos (by omega), hasBit_firstMasks]
      refine congrArg (v.bit k || ·) (decide_eq_decide.2 ?_)
      rw [← Layout.le_iff_emod_le hfirst]
      exact ⟨fun hmk => ⟨hmk, hkn.le⟩, And.left⟩
    · rcases lt_trichotomy (k / (L.bitsInChunk : ℤ)) (n / L.bitsInChunk) with hn | hlast | hafter
      · have hmk : m < k := Layout.lt_of_ediv_lt hm
        have hkn : k < n := Layout.lt_of_ediv_lt hn
        rw [if_pos (by omega), decide_eq_true (by omega), Layout.hasBit_allOnes, Bool.or_true]
      · have hmk : m < k := Layout.lt_of_ediv_lt hm
        have hnotfirst : ¬(m / (L.bitsInChunk : ℤ) ≤ k / L.bitsInChunk ∧
            k / (L.bitsInChunk : ℤ) ≤ m / L.bitsInChunk) := by omega
        rw [if_neg (by omega), if_pos (by omega), if_neg hnotfirst, hasBit_lastMasks]
        refine congrArg (v.bit k || ·) (decide_eq_decide.2 ?_)
        rw [← Layout.le_iff_emod_le hlast.symm]
        exact ⟨fun hkn => ⟨hmk.le, hkn⟩, And.right⟩
      · have hnk : n < k := Layout.lt_of_ediv_lt hafter
        rw [if_neg (by omega), if_neg (by omega), if_neg (by omega), decide_eq_false (by omega),
          Bool.or_false]
        rfl

theorem Exact.setAllFrom (h : v.Exact) (hm0 : 0 ≤ m) (hmn : m ≤ n)
    (hm : L.getChunkIndex m = m / L.bitsInChunk) (hn : L.getChunkIndex n = n / L.bitsInChunk) :
    (v.setAllFrom m n).Exact := by
  have hbit := h.bit_setAllFrom hmn hm hn
  have hnonneg : 0 ≤ m / (L.bitsInChunk : ℤ) := ediv_nonneg_iff.2 hm0
  have hle : m / (L.bitsInChunk : ℤ) ≤ n / L.bitsInChunk := ediv_le_ediv hmn
  obtain ⟨hlast, hlastlt⟩ := h.last_lt
  have hnum : (v.setAllFrom m n).numChunks = max v.numChunks (n / L.bitsInChunk + 1) := by
    rw [BitVector.setAllFrom, hm, hn, h.growFor_eq]
    dsimp only
    split_ifs <;> rfl
  refine h.extend hnonneg hle ?_ ?_ ?_ ?_ ⟨m, rfl, ?_⟩ ⟨n, rfl, ?_⟩ (fun k hk => ?_) fun k hk => ?_
  · rw [hnum]
    exact le_max_left _ _
  · rw [hnum]
    exact (Int.lt_succ _).trans_le (le_max_right _ _)
  · rw [BitVector.setAllFrom, hm, hn, h.growFor_eq, BitVector.resized]
    dsimp only
    split_ifs <;> dsimp only <;> omega
  · rw [BitVector.setAllFrom, hm, hn, h.growFor_eq, BitVector.resized]
    dsimp only
    split_ifs <;> dsimp only <;> omega
  · rw [hbit, decide_eq_true (by omega), Bool.or_true]
  · rw [hbit, decide_eq_true (by omega), Bool.or_true]
  · rw [hbit, hk, Bool.true_or]
  · rw [hbit, Bool.or_eq_true, decide_eq_true_eq] at hk
    exact hk.imp_right fun hin => ⟨ediv_le_ediv hin.1, ediv_le_ediv hin.2⟩

/-! ### Size -/

/-- `pack` drops the chunks behind the last one that is not zero. -/
theorem Exact.pack_fields (h : v.Exact) :
    v.pack.chunks = v.chunks ∧ v.pack.numChunks = v.lastChunkWithNonZero + 1 ∧
      v.pack.lastChunkWithNonZero = v.lastChunkWithNonZero ∧
      v.pack.firstChunkWithNonZero =
        if v.lastChunkWithNonZero < 0 then 0 else v.firstChunkWithNonZero := by
  obtain ⟨hlast, hlastlt⟩ := h.last_lt
  rw [pack, numUsedChunks, setChunkSize]
  by_cases hneg : v.lastChunkWithNonZero < 0
  · have hfirst := h.first_of_last_neg hneg
    have hsize := h.numChunks_nonneg
    have hzero : v.chunks = fun _ => 0 := funext fun i => h.chunks_within (by omega)
    have hempty : v.lastChunkWithNonZero + 1 = 0 := by omega
    have hnone : (if v.lastChunkWithNonZero < 0 then 0 else v.firstChunkWithNonZero) = 0 :=
      if_pos hneg
    rw [hempty]
    by_cases hsame : 0 = v.numChunks
    · rw [if_pos hsame]
      exact ⟨rfl, hsame.symm, rfl, (hfirst.trans hsame.symm).trans hnone.symm⟩
    · rw [if_neg hsame, if_pos rfl, hzero]
      refine ⟨rfl, rfl, ?_, hnone.symm⟩
      dsimp only [new]
      omega
  · have hsome : (if v.lastChunkWithNonZero < 0 then 0 else v.firstChunkWithNonZero) =
        v.firstChunkWithNonZero := if_neg hneg
    by_cases hsame : v.lastChunkWithNonZero + 1 = v.numChunks
    · rw [if_pos hsame]
      exact ⟨rfl, hsame.symm, rfl, hsome.symm⟩
    · have hfirst := h.chunk_bounds (h.first_ne_zero (not_lt.1 hneg)).2
      have hshrinks : v.numChunks > v.lastChunkWithNonZero + 1 := by omega
      have hchunks : (fun i => if i < v.lastChunkWithNonZero + 1 then v.chunks i else 0) =
          v.chunks := by
        funext i
        split_ifs with hi
        · rfl
        · exact (h.chunks_within (by omega)).symm
      rw [if_neg hsame, if_neg (by omega), if_pos hshrinks, if_neg hneg, if_neg (by omega),
        if_neg (by omega)]
      dsimp only
      rw [if_pos hshrinks]
      exact ⟨hchunks, rfl, rfl, hsome.symm⟩

theorem Exact.bit_pack (h : v.Exact) (k : ℤ) : v.pack.bit k = v.bit k := by
  rw [bit, h.pack_fields.1]
  rfl

theorem Exact.pack (h : v.Exact) : v.pack.Exact := by
  obtain ⟨hlast, hlastlt⟩ := h.last_lt
  obtain ⟨hchunks, hnum, hlasteq, hfirsteq⟩ := h.pack_fields
  by_cases hneg : v.lastChunkWithNonZero < 0
  · rw [if_pos hneg] at hfirsteq
    refine ⟨by omega, .inl ⟨by omega, by omega, fun i => ?_⟩⟩
    have hfirst := h.first_of_last_neg hneg
    have hsize := h.numChunks_nonneg
    rw [hchunks]
    exact h.chunks_within (by omega)
  · obtain ⟨hfirst, hfirstne⟩ := h.first_ne_zero (not_lt.1 hneg)
    rw [if_neg hneg] at hfirsteq
    refine ⟨by omega, .inr ⟨by omega, by omega, ?_, ?_, fun i hi => ?_⟩⟩
    · rw [hchunks, hfirsteq]
      exact hfirstne
    · rw [hchunks, hlasteq]
      exact h.last_ne_zero (not_lt.1 hneg)
    · rw [hchunks] at hi
      rw [hfirsteq, hlasteq]
      exact (h.chunk_bounds hi).2.imp_right And.left

end BitVector

end OMR.Compiler
