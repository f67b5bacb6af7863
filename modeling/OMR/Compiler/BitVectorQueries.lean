import Mathlib.Data.Set.Card
import OMR.Compiler.BitVectorIterator
import OMR.Compiler.BitVectorOperations

/-!
# The set of a bit vector

A `TR_BitVector` stands for the set of the indices of its bits: what each query says about this set,
and what each operation does to it.
-/

namespace OMR.Compiler

open OMR.Lib

namespace BitVector

variable {L : Layout} {v v2 : BitVector L} {k n : ℤ}

/-- The set that a vector stands for. -/
def toSet (v : BitVector L) : Set ℤ := {n | v.bit n = true}

@[simp] theorem mem_toSet : n ∈ v.toSet ↔ v.bit n = true := Iff.rfl

theorem members_nodup (v : BitVector L) : (v.members 0).Nodup :=
  (v.members_pairwise 0).imp fun hlt => hlt.ne

theorem toSet_eq_members (hbounds : ∀ n, v.bit n = true → 0 ≤ n ∧ n < v.numChunks * L.bitsInChunk) :
    v.toSet = ((v.members 0).toFinset : Set ℤ) := by
  rw [List.coe_toFinset]
  refine Set.ext fun n => ?_
  rw [mem_toSet, Set.mem_ofPred_eq, members, List.mem_filter, mem_countUp]
  exact ⟨fun hbit => ⟨hbounds n hbit, hbit⟩, And.right⟩

theorem ncard_toSet (hbounds : ∀ n, v.bit n = true → 0 ≤ n ∧ n < v.numChunks * L.bitsInChunk) :
    v.toSet.ncard = (v.members 0).length := by
  rw [toSet_eq_members hbounds, Set.ncard_coe_finset, List.toFinset_card_of_nodup v.members_nodup]

theorem Exact.finite_toSet (h : v.Exact) : v.toSet.Finite := by
  rw [toSet_eq_members fun n => h.bit_bounds]
  exact Finset.finite_toSet _

/-! ### One vector -/

theorem Exact.isEmpty_iff (h : v.Exact) : v.isEmpty = true ↔ v.toSet = ∅ := by
  rw [isEmpty, decide_eq_true_eq, Set.eq_empty_iff_forall_notMem]
  constructor
  · intro hlast k hk
    rw [mem_toSet, h.bit_of_empty hlast] at hk
    exact Bool.noConfusion hk
  · intro hall
    by_contra hlast
    obtain ⟨k, -, hbit⟩ := h.exists_last (not_lt.1 hlast)
    exact hall k hbit

theorem WellFormed.elementCount_eq_ncard (h : v.WellFormed) :
    v.elementCount = (v.toSet.ncard : ℤ) := by
  rw [h.elementCount_eq, ncard_toSet fun n => h.bit_bounds]

theorem Exact.hasMoreThanOneElement_iff (h : v.Exact) :
    v.hasMoreThanOneElement = true ↔ 1 < v.toSet.ncard := by
  rw [hasMoreThanOneElement]
  split_ifs with hlt hneg
  · have hlast : 0 ≤ v.lastChunkWithNonZero := by
      by_contra hneg
      have := h.first_of_last_neg (not_le.1 hneg)
      have := h.numChunks_nonneg
      omega
    obtain ⟨first, hfirst, hfirstbit⟩ := h.exists_first hlast
    obtain ⟨last, hlast, hlastbit⟩ := h.exists_last hlast
    refine ⟨fun _ => ?_, fun _ => rfl⟩
    refine (Set.one_lt_ncard_iff h.finite_toSet).2 ⟨first, last, hfirstbit, hlastbit, ?_⟩
    rintro rfl
    omega
  · have hempty : v.toSet = ∅ := h.isEmpty_iff.1 (decide_eq_true hneg)
    rw [hempty, Set.ncard_empty]
    exact ⟨fun hfalse => hfalse.elim, fun hlt => absurd hlt (by decide)⟩
  · have hfirst := h.chunk_bounds (h.first_ne_zero (not_lt.1 hneg)).2
    have heq : v.lastChunkWithNonZero = v.firstChunkWithNonZero := by omega
    have hmembers := members_eq_filter hfirst.1 (show v.firstChunkWithNonZero ≤
      v.firstChunkWithNonZero + 1 by omega) hfirst.2.2.2 fun i hi => by
        have := h.chunk_bounds hi
        omega
    have hsum := bitsInChunkBytes_eq (v.chunks v.firstChunkWithNonZero)
    rw [bitsInChunkBytes, if_pos (h.first_ne_zero (not_lt.1 hneg)).2] at hsum
    rw [hsum, decide_eq_true_eq, ncard_toSet fun n => h.bit_bounds, hmembers, length_filter_chunk]

/-- The search for the highest bit ends at the last index of the chunk that is set. -/
theorem highestBit_spec {c : L.Chunk} {i : ℤ} {fuel : ℕ} (hfuel : fuel ≤ L.bitsInChunk)
    (hne : ∃ k : ℤ, 0 ≤ k ∧ k < fuel ∧ L.hasBit c k = true) :
    ∃ k : ℤ, 0 ≤ k ∧ k < fuel ∧ L.hasBit c k = true ∧
      highestBit L c i fuel = k + L.getBitIndex i ∧
      ∀ j : ℤ, k < j → j < fuel → L.hasBit c j = false := by
  induction fuel with
  | zero =>
    obtain ⟨k, hk, hlt, -⟩ := hne
    omega
  | succ fuel ih =>
    obtain ⟨k, hk, hlt, hbit⟩ := hne
    have hplace : L.getIndexInChunk fuel = fuel := Int.emod_eq_of_lt (by omega) (by omega)
    rw [highestBit]
    by_cases htop : L.hasBit c fuel = true
    · rw [if_pos (Layout.and_getBitMask_ne_zero_iff.2 htop), hplace]
      exact ⟨fuel, by omega, by omega, htop, rfl, fun j hj hjlt => by omega⟩
    · have hkne : k ≠ fuel := by
        rintro rfl
        exact htop hbit
      obtain ⟨r, hr, hrlt, hrbit, heq, hafter⟩ := ih (by omega) ⟨k, hk, by omega, hbit⟩
      rw [if_neg fun hne => htop (Layout.and_getBitMask_ne_zero_iff.1 hne)]
      refine ⟨r, hr, by omega, hrbit, heq, fun j hj hjlt => ?_⟩
      by_cases hjtop : j = fuel
      · rw [hjtop]
        exact Bool.eq_false_iff.2 htop
      · exact hafter j hj (by omega)

theorem Exact.getHighestBitPosition_isGreatest (h : v.Exact) (hne : v.toSet.Nonempty) :
    IsGreatest v.toSet v.getHighestBitPosition := by
  have hpos : (0 : ℤ) < L.bitsInChunk := by exact_mod_cast L.bitsInChunk_pos
  obtain ⟨m, hm⟩ := hne
  have hlast : ¬v.lastChunkWithNonZero < 0 := by
    have := h.bit_chunk hm
    omega
  obtain ⟨j, hj, hjlt, hjbit⟩ := Layout.chunk_ne_zero_iff.1 (h.last_ne_zero (not_lt.1 hlast))
  obtain ⟨k, hk, hklt, hkbit, heq, hafter⟩ :=
    highestBit_spec (i := v.lastChunkWithNonZero) le_rfl ⟨j, hj, hjlt, hjbit⟩
  have hchunk : (k + L.getBitIndex v.lastChunkWithNonZero) / (L.bitsInChunk : ℤ) =
      v.lastChunkWithNonZero := by
    rw [Layout.getBitIndex, Int.add_mul_ediv_right _ _ hpos.ne', Int.ediv_eq_zero_of_lt hk hklt,
      Int.zero_add]
  have hplace : (k + L.getBitIndex v.lastChunkWithNonZero) % (L.bitsInChunk : ℤ) =
      k % L.bitsInChunk := Int.add_mul_emod_self_right _ _ _
  rw [getHighestBitPosition, if_neg hlast, heq]
  refine ⟨?_, fun i hi => ?_⟩
  · rw [mem_toSet, bit, hchunk, Layout.hasBit_congr hplace]
    exact hkbit
  · by_contra hlt
    have hilast := (h.bit_chunk hi).2.2.1
    have hige := ediv_le_ediv (L := L) (not_le.1 hlt).le
    rw [hchunk] at hige
    have hichunk := le_antisymm hilast hige
    have hiplace := L.emod_lt_emod (not_le.1 hlt) (hichunk.trans hchunk.symm)
    rw [hplace, Int.emod_eq_of_lt hk hklt] at hiplace
    have hclear := hafter _ hiplace (L.indexInChunk_lt i)
    rw [Layout.hasBit_congr (Int.emod_emod _ _), ← hichunk] at hclear
    rw [mem_toSet, bit, hclear] at hi
    exact Bool.noConfusion hi

/-- What the iterator returns from a start bit on. -/
theorem WellFormed.elements_eq (h : v.WellFormed) {fuel : ℕ} (hn : -1 ≤ n)
    (hsize : n < v.numChunks * L.bitsInChunk) (hfuel : (v.members (n + 1)).length < fuel) :
    v.elements (v.getNextBit n) fuel = some (v.members (n + 1)) := by
  induction fuel generalizing n with
  | zero => omega
  | succ fuel ih =>
    have hnext := h.getNextBit_spec hn hsize
    have hlt := hnext.lt
    have hle := hnext.le_size h
    have hmore := h.hasMoreElements_iff (n := v.getNextBit n) (by omega) hle
    rw [elements]
    rcases Int.lt_or_eq_of_le hle with hinside | hend
    · rw [hnext.members hinside, List.length_cons] at hfuel
      rw [if_pos (hmore.2 hinside), hnext.members hinside, ih (by omega) hinside (by omega)]
      rfl
    · rw [if_neg fun htrue => (hmore.1 htrue).ne hend]
      rw [hend] at hnext
      rw [hnext.members_end]

/-- An iterator that starts behind the vector has no element. -/
theorem WellFormed.elements_behind (h : v.WellFormed) {startBit : ℤ} {fuel : ℕ}
    (hlow : v.numChunks * L.bitsInChunk < startBit) (hhigh : startBit < 2 ^ 31) :
    v.elements (v.start startBit) (fuel + 1) = some [] := by
  have hpos : (0 : ℤ) < L.bitsInChunk := by exact_mod_cast L.bitsInChunk_pos
  have hbound := h.size_lt
  have hnonneg := Int.mul_nonneg h.numChunks_nonneg hpos.le
  have hle := Int.ediv_le_self (L.bitsInChunk : ℤ) (show 0 ≤ startBit by omega)
  have hcur : toInt32 (startBit - 1 + 1) = startBit := by
    rw [sub_add_cancel]
    exact toInt32_of_lt (by omega) hhigh
  have hchunk : L.getChunkIndex startBit = startBit / L.bitsInChunk :=
    toInt32_of_lt (by have := ediv_nonneg_iff (L := L).2 (show 0 ≤ startBit by omega); omega)
      (by omega)
  have hbehind : v.numChunks ≤ startBit / L.bitsInChunk := (Int.le_ediv_iff_mul_le hpos).2 hlow.le
  have hlast := h.last_lt.2
  have hend : toInt32 (L.getBitIndex v.numChunks) = v.numChunks * L.bitsInChunk :=
    toInt32_of_lt (by rw [Layout.getBitIndex]; omega) hbound
  have hstart : v.start startBit = v.numChunks * L.bitsInChunk := by
    rw [start, getNextBit, hcur, hend, hchunk]
    exact if_pos (by omega)
  rw [hstart, elements, if_neg fun hmore => ?_]
  exact lt_irrefl _ ((h.hasMoreElements_iff hnonneg le_rfl).1 hmore)

theorem mem_members_iff (h : v.WellFormed) {low : ℤ} :
    n ∈ v.members low ↔ v.bit n = true ∧ low ≤ n := by
  rw [members, List.mem_filter, mem_countUp]
  exact ⟨fun hin => ⟨hin.2, hin.1.1⟩, fun hin => ⟨⟨hin.2, (h.bit_bounds hin.1).2⟩, hin.1⟩⟩

/-! ### Two vectors -/

theorem anyChunk_iff (p : ℤ → Bool) (i : ℤ) (fuel : ℕ) :
    anyChunk p i fuel = true ↔ ∃ j, i ≤ j ∧ j < i + fuel ∧ p j = true := by
  induction fuel generalizing i with
  | zero =>
    rw [anyChunk]
    refine ⟨fun hfalse => Bool.noConfusion hfalse, ?_⟩
    rintro ⟨j, hj, hlt, -⟩
    omega
  | succ fuel ih =>
    rw [anyChunk]
    push_cast
    split_ifs with hp
    · exact ⟨fun _ => ⟨i, le_rfl, by omega, hp⟩, fun _ => rfl⟩
    · rw [ih]
      refine exists_congr fun j => ⟨fun hj => ⟨by omega, by omega, hj.2.2⟩, fun hj => ?_⟩
      rcases Int.lt_or_eq_of_le hj.1 with hlt | rfl
      · exact ⟨by omega, by omega, hj.2.2⟩
      · exact absurd hj.2.2 hp

/-- The chunks of two vectors whose ranges of chunks meet have an order. -/
theorem Exact.common_bounds (h : v.Exact) (h2 : v2.Exact) (hlast : 0 ≤ v.lastChunkWithNonZero)
    (hmeet : ¬(v2.lastChunkWithNonZero < v.firstChunkWithNonZero ∨
      v2.firstChunkWithNonZero > v.lastChunkWithNonZero)) :
    0 ≤ max v.firstChunkWithNonZero v2.firstChunkWithNonZero ∧
      max v.firstChunkWithNonZero v2.firstChunkWithNonZero ≤
        min v.lastChunkWithNonZero v2.lastChunkWithNonZero ∧
      min v.lastChunkWithNonZero v2.lastChunkWithNonZero < v.numChunks := by
  obtain ⟨hfirst, hne⟩ := h.first_ne_zero hlast
  have hfirst2 := (h2.first_ne_zero (by omega)).2
  have hbounds := h.chunk_bounds hne
  have hbounds2 := h2.chunk_bounds hfirst2
  refine ⟨hfirst.trans (le_max_left _ _), le_min (max_le ?_ ?_) (max_le ?_ ?_),
    (min_le_left _ _).trans_lt h.last_lt.2⟩ <;> omega

/-- Vectors whose ranges of chunks do not meet have no bit in common. -/
theorem Exact.inter_of_apart (h : v.Exact) (h2 : v2.Exact)
    (happart : v2.lastChunkWithNonZero < v.firstChunkWithNonZero ∨
      v2.firstChunkWithNonZero > v.lastChunkWithNonZero) : v.toSet ∩ v2.toSet = ∅ := by
  refine Set.eq_empty_iff_forall_notMem.2 fun k hk => ?_
  have := h.bit_chunk hk.1
  have := h2.bit_chunk hk.2
  omega

theorem Exact.intersects_iff (h : v.Exact) (h2 : v2.Exact) :
    v.intersects v2 = true ↔ (v.toSet ∩ v2.toSet).Nonempty := by
  rw [intersects]
  split_ifs with hempty happart
  · rw [h.isEmpty_iff.1 (decide_eq_true hempty), Set.empty_inter]
    exact ⟨fun hfalse => hfalse.elim, fun hne => absurd hne Set.not_nonempty_empty⟩
  · rw [h.inter_of_apart h2 happart]
    exact ⟨fun hfalse => hfalse.elim, fun hne => absurd hne Set.not_nonempty_empty⟩
  · have hbounds := h.common_bounds h2 (not_lt.1 hempty) happart
    rw [commonChunks_eq, anyChunk_iff]
    constructor
    · rintro ⟨i, -, -, hi⟩
      obtain ⟨k, hk, hbit⟩ := exists_hasBit (of_decide_eq_true hi) i
      rw [Layout.hasBit_and, Bool.and_eq_true, ← hk] at hbit
      exact ⟨k, hbit⟩
    · rintro ⟨k, hk, hk2⟩
      have hkbounds := h.bit_chunk hk
      have hkbounds2 := h2.bit_chunk hk2
      refine ⟨k / L.bitsInChunk, by dsimp only; omega, by dsimp only; omega,
        decide_eq_true fun hzero => ?_⟩
      have hboth := Layout.hasBit_and (v.chunks (k / L.bitsInChunk)) (v2.chunks (k / L.bitsInChunk)) k
      rw [hzero, Layout.hasBit_zero] at hboth
      exact Bool.noConfusion (hboth.trans (congrArg₂ (· && ·) hk hk2))

theorem chunk_eq_of_hasBit {c d : L.Chunk} (h : ∀ k, L.hasBit c k = L.hasBit d k) : c = d := by
  by_contra hne
  have hxor : c ^^^ d ≠ 0 := fun hzero => hne (BitVec.xor_eq_zero_iff.1 hzero)
  obtain ⟨k, -, hbit⟩ := exists_hasBit hxor 0
  have hsame := h k
  rw [Layout.hasBit, BitVec.getLsbD_xor] at hbit
  rw [Layout.hasBit, Layout.hasBit] at hsame
  rw [hsame, Bool.xor_self] at hbit
  exact Bool.noConfusion hbit

theorem chunks_eq_of_toSet (h : v.toSet = v2.toSet) (i : ℤ) : v.chunks i = v2.chunks i := by
  have hpos : (0 : ℤ) < L.bitsInChunk := by exact_mod_cast L.bitsInChunk_pos
  refine chunk_eq_of_hasBit fun k => ?_
  have hplace : (k % L.bitsInChunk + i * L.bitsInChunk) % (L.bitsInChunk : ℤ) =
      k % L.bitsInChunk := by
    rw [Int.add_mul_emod_self_right, Int.emod_emod]
  have hchunk : (k % L.bitsInChunk + i * L.bitsInChunk) / (L.bitsInChunk : ℤ) = i := by
    rw [Int.add_mul_ediv_right _ _ hpos.ne',
      Int.ediv_eq_zero_of_lt (L.indexInChunk_nonneg k) (L.indexInChunk_lt k), Int.zero_add]
  have hbits : v.bit (k % L.bitsInChunk + i * L.bitsInChunk) =
      v2.bit (k % L.bitsInChunk + i * L.bitsInChunk) := Bool.eq_iff_iff.2 (Set.ext_iff.1 h _)
  rw [bit, bit, hchunk] at hbits
  rw [← Layout.hasBit_congr hplace, ← Layout.hasBit_congr hplace]
  exact hbits

/-- The bounds of the chunks are those of the set. -/
theorem Exact.last_le (h : v.Exact) (h2 : v2.Exact) (hset : v.toSet = v2.toSet) :
    v.lastChunkWithNonZero ≤ v2.lastChunkWithNonZero := by
  by_cases hneg : v.lastChunkWithNonZero < 0
  · have := h.last_lt
    have := h2.last_lt
    omega
  · obtain ⟨k, hk, hbit⟩ := h.exists_last (not_lt.1 hneg)
    have := (h2.bit_chunk (Set.ext_iff.1 hset k |>.1 hbit)).2.2.1
    omega

theorem Exact.first_le (h : v.Exact) (h2 : v2.Exact) (hset : v.toSet = v2.toSet)
    (hneg : 0 ≤ v.lastChunkWithNonZero) :
    v2.firstChunkWithNonZero ≤ v.firstChunkWithNonZero := by
  obtain ⟨k, hk, hbit⟩ := h.exists_first hneg
  have := (h2.bit_chunk (Set.ext_iff.1 hset k |>.1 hbit)).2.1
  omega

/-- `operator==`. -/
theorem Exact.equals_iff (h : v.Exact) (h2 : v2.Exact) :
    v.equals v2 = true ↔ v.toSet = v2.toSet := by
  constructor
  · intro hequals
    rw [equals] at hequals
    split_ifs at hequals with hlast hempty hfirst
    · rw [h.isEmpty_iff.1 (decide_eq_true hempty),
        h2.isEmpty_iff.1 (decide_eq_true (by omega))]
    · rw [Bool.not_eq_true', ← Bool.not_eq_true, anyChunk_iff] at hequals
      refine Set.ext fun k => ?_
      by_cases hin : v.firstChunkWithNonZero ≤ k / L.bitsInChunk ∧
          k / L.bitsInChunk ≤ v.lastChunkWithNonZero
      · have hchunk : v.chunks (k / L.bitsInChunk) = v2.chunks (k / L.bitsInChunk) := by
          by_contra hne
          exact hequals ⟨_, hin.1, by omega, decide_eq_true hne⟩
        rw [mem_toSet, mem_toSet, bit, bit, hchunk]
      · rw [mem_toSet, mem_toSet, bit_eq_false_of_chunk (h.chunks_within hin) rfl,
          bit_eq_false_of_chunk (h2.chunks_within (by omega)) rfl]
  · intro hset
    have hlast := le_antisymm (h.last_le h2 hset) (h2.last_le h hset.symm)
    rw [equals, if_neg (not_not.2 hlast)]
    split_ifs with hempty hfirst hagain
    · rfl
    · exact absurd (le_antisymm (h2.first_le h hset.symm (by omega))
        (h.first_le h2 hset (by omega))) hfirst
    · exact absurd hlast hagain
    · rw [Bool.not_eq_true', ← Bool.not_eq_true, anyChunk_iff]
      rintro ⟨i, -, -, hi⟩
      exact of_decide_eq_true hi (chunks_eq_of_toSet hset i)

theorem WellFormed.commonElementCount_eq (h : v.WellFormed) (h2 : v2.Exact) :
    v.commonElementCount v2 = ((v.toSet ∩ v2.toSet).ncard : ℤ) := by
  rw [commonElementCount]
  split_ifs with happart
  · rw [h.inter_of_apart h2 happart, Set.ncard_empty]
    rfl
  · have hlast : 0 ≤ v.lastChunkWithNonZero := by
      by_contra hneg
      have := h.first_of_last_neg (not_le.1 hneg)
      have := h2.last_lt
      have := h.numChunks_nonneg
      by_cases hneg2 : v2.lastChunkWithNonZero < 0
      · omega
      · have := (h2.first_ne_zero (not_lt.1 hneg2)).1
        omega
    obtain ⟨hlow, hle, hhigh⟩ := h.common_bounds h2 hlast happart
    have hbit (n : ℤ) : ({ v with chunks := fun i => v.chunks i &&& v2.chunks i } :
        BitVector L).bit n = (v.bit n && v2.bit n) := Layout.hasBit_and _ _ _
    have hset : ({ v with chunks := fun i => v.chunks i &&& v2.chunks i } :
        BitVector L).toSet = v.toSet ∩ v2.toSet := by
      refine Set.ext fun n => ?_
      rw [mem_toSet, hbit, Bool.and_eq_true]
      rfl
    have hcount := countChunks_members
      (v := { v with chunks := fun i => v.chunks i &&& v2.chunks i }) h.size_lt hlow (by omega)
      hhigh fun i hi => ?_
    · rw [commonChunks_eq, ← hset, ncard_toSet fun n hn => ?_]
      · exact hcount
      · rw [hbit, Bool.and_eq_true] at hn
        exact h.bit_bounds hn.1
    · have hv := h.chunk_bounds fun hzero => hi (by
        dsimp only
        rw [hzero, Layout.zero_and])
      have hv2 := h2.chunk_bounds fun hzero => hi (by
        dsimp only
        rw [hzero, Layout.and_zero])
      exact ⟨max_le hv.2.1 hv2.2.1, le_min hv.2.2.1 hv2.2.2.1⟩

end BitVector

end OMR.Compiler
