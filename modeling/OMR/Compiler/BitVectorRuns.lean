import OMR.Compiler.BitVectorQueries

/-!
# Runs of operations on a bit vector

Every sequence of operations that starts with the empty vector keeps the vector and the set that it
stands for in step. The numbers of chunks have 32 bits; counts and iterators are right when the
indices have, too.
-/

namespace OMR.Compiler

/-- The number of chunks up to an index has 32 bits. -/
structure Layout.Fits (L : Layout) (n : ℤ) : Prop where
  nonneg : 0 ≤ n
  chunk_lt : n / L.bitsInChunk + 1 < 2 ^ 31

theorem Layout.Fits.getChunkIndex_eq {L : Layout} {n : ℤ} (h : L.Fits n) :
    L.getChunkIndex n = n / L.bitsInChunk := by
  have hnonneg := BitVector.ediv_nonneg_iff (L := L).2 h.nonneg
  have hlt := h.chunk_lt
  exact toInt32_of_lt (by omega) (by omega)

/-- Smaller indices fit as well. -/
theorem Layout.Fits.of_le {L : Layout} {m n : ℤ} (h : L.Fits n) (hm : 0 ≤ m) (hmn : m ≤ n) :
    L.Fits m :=
  ⟨hm, (Int.add_le_add_right (BitVector.ediv_le_ediv hmn) 1).trans_lt h.chunk_lt⟩

namespace BitVector

variable {L : Layout} {v v2 : BitVector L} {m n : ℤ}

/-- The operations; those with a second vector have it as it is at this moment. -/
inductive Operation (L : Layout) where
  | set (n : ℤ)
  | reset (n : ℤ)
  | clear (n : ℤ)
  | setAll (n : ℤ)
  | setAllFrom (m n : ℤ)
  | empty
  | assign (v2 : BitVector L)
  | orAssign (v2 : BitVector L)
  | andAssign (v2 : BitVector L)
  | subAssign (v2 : BitVector L)
  | pack
  | ensureBits (n : ℤ)

namespace Operation

def apply (v : BitVector L) : Operation L → BitVector L
  | set n => v.set n
  | reset n => v.reset n true
  | clear n => (v.clear n).2
  | setAll n => v.setAll n
  | setAllFrom m n => v.setAllFrom m n
  | empty => v.empty
  | assign v2 => v.assign v2
  | orAssign v2 => v.orAssign v2
  | andAssign v2 => v.andAssign v2
  | subAssign v2 => v.subAssign v2
  | pack => v.pack
  | ensureBits n => v.ensureBits n

/-- What an operation means for the set. -/
def onSet (s : Set ℤ) : Operation L → Set ℤ
  | set n => insert n s
  | reset n => s \ {n}
  | clear n => s \ {n}
  | setAll n => s ∪ Set.Ico 0 n
  | setAllFrom m n => s ∪ Set.Icc m n
  | empty => ∅
  | assign v2 => v2.toSet
  | orAssign v2 => s ∪ v2.toSet
  | andAssign v2 => s ∩ v2.toSet
  | subAssign v2 => s \ v2.toSet
  | pack => s
  | ensureBits _ => s

/-- The indices fit, those of the loop of `setAll(n)` into 32 bits, and a second vector is exact. -/
def Fits : Operation L → Prop
  | set n => L.Fits n
  | reset n => L.Fits n
  | clear n => L.Fits n
  | setAll n => n < 2 ^ 31
  | setAllFrom m n => 0 ≤ m ∧ m ≤ n ∧ L.Fits n
  | empty => True
  | assign v2 => v2.Exact
  | orAssign v2 => v2.Exact
  | andAssign v2 => v2.Exact
  | subAssign v2 => v2.Exact
  | pack => True
  | ensureBits n => L.Fits n

end Operation

theorem toSet_eq_of_bit {s : Set ℤ} (h : ∀ k, v.bit k = true ↔ k ∈ s) : v.toSet = s := Set.ext h

theorem Exact.toSet_reset (h : v.Exact) (hn : L.getChunkIndex n = n / L.bitsInChunk) :
    (v.reset n true).toSet = v.toSet \ {n} := by
  refine toSet_eq_of_bit fun k => ?_
  rw [h.bit_reset hn, Bool.and_eq_true, Bool.not_eq_true', decide_eq_false_iff_not]
  rfl

theorem Exact.clear (h : v.Exact) (hn : L.getChunkIndex n = n / L.bitsInChunk) :
    (v.clear n).2.Exact ∧ (v.clear n).2.toSet = v.toSet \ {n} := by
  rw [BitVector.clear, h.get_eq hn]
  dsimp only
  split_ifs with hbit
  · exact ⟨h.reset hn, h.toSet_reset hn⟩
  · have hmem : n ∉ v.toSet := hbit
    exact ⟨h, (Set.sdiff_singleton_eq_self hmem).symm⟩

theorem Exact.setAll_of_lt (h : v.Exact) (hlt : n < 2 ^ 31) :
    (v.setAll n).Exact ∧ (v.setAll n).toSet = v.toSet ∪ Set.Ico 0 n := by
  by_cases hn : n ≤ 0
  · have hself : v.setAll n = v := if_pos hn
    rw [hself, Set.Ico_eq_empty (not_lt.2 hn), Set.union_empty]
    exact ⟨h, rfl⟩
  · have hpos : (0 : ℤ) < L.bitsInChunk := by exact_mod_cast L.bitsInChunk_pos
    have hnonneg : 0 ≤ (n - 1) / (L.bitsInChunk : ℤ) := ediv_nonneg_iff.2 (by omega)
    have hle := Int.ediv_le_self (L.bitsInChunk : ℤ) (show 0 ≤ n - 1 by omega)
    have hchunk : L.getChunkIndex (n - 1) = (n - 1) / L.bitsInChunk :=
      toInt32_of_lt (by omega) (by omega)
    have hsplit := L.ediv_add_emod (n - 1)
    have hplace := L.indexInChunk_nonneg (n - 1)
    have hstart : 0 ≤ L.getBitIndex ((n - 1) / L.bitsInChunk) := Int.mul_nonneg hnonneg hpos.le
    have hindex : toInt32 (L.getBitIndex ((n - 1) / L.bitsInChunk)) =
        L.getBitIndex ((n - 1) / L.bitsInChunk) := by
      refine toInt32_of_lt (by omega) ?_
      rw [Layout.getBitIndex, Int.mul_comm]
      omega
    refine ⟨h.setAll hchunk hindex, toSet_eq_of_bit fun k => ?_⟩
    rw [h.bit_setAll hchunk hindex, Bool.or_eq_true, decide_eq_true_eq]
    rfl

/-- One operation. -/
theorem Exact.apply (h : v.Exact) (op : Operation L) (hfits : op.Fits) :
    (op.apply v).Exact ∧ (op.apply v).toSet = op.onSet v.toSet := by
  cases op with
  | set n =>
    have hchunk := hfits.getChunkIndex_eq
    refine ⟨h.set hfits.nonneg hchunk, toSet_eq_of_bit fun k => ?_⟩
    rw [Operation.apply, h.bit_set hchunk, Bool.or_eq_true, decide_eq_true_eq]
    exact or_comm
  | reset n => exact ⟨h.reset hfits.getChunkIndex_eq, h.toSet_reset hfits.getChunkIndex_eq⟩
  | clear n => exact h.clear hfits.getChunkIndex_eq
  | setAll n => exact h.setAll_of_lt hfits
  | setAllFrom m n =>
    obtain ⟨hm, hmn, hn⟩ := hfits
    have hmchunk := (hn.of_le hm hmn).getChunkIndex_eq
    refine ⟨h.setAllFrom hm hmn hmchunk hn.getChunkIndex_eq, toSet_eq_of_bit fun k => ?_⟩
    rw [Operation.apply, h.bit_setAllFrom hmn hmchunk hn.getChunkIndex_eq, Bool.or_eq_true,
      decide_eq_true_eq]
    rfl
  | empty =>
    refine ⟨h.empty, toSet_eq_of_bit fun k => ?_⟩
    rw [Operation.apply, h.bit_empty]
    exact ⟨fun hfalse => Bool.noConfusion hfalse, fun hfalse => hfalse.elim⟩
  | assign v2 =>
    refine ⟨h.assign hfits, toSet_eq_of_bit fun k => ?_⟩
    rw [Operation.apply, h.bit_assign hfits]
    rfl
  | orAssign v2 =>
    refine ⟨h.orAssign hfits, toSet_eq_of_bit fun k => ?_⟩
    rw [Operation.apply, h.bit_orAssign hfits, Bool.or_eq_true]
    rfl
  | andAssign v2 =>
    refine ⟨h.andAssign hfits, toSet_eq_of_bit fun k => ?_⟩
    rw [Operation.apply, h.bit_andAssign hfits, Bool.and_eq_true]
    rfl
  | subAssign v2 =>
    refine ⟨h.subAssign hfits, toSet_eq_of_bit fun k => ?_⟩
    rw [Operation.apply, h.bit_subAssign hfits, Bool.and_eq_true, Bool.not_eq_true',
      ← Bool.not_eq_true]
    rfl
  | pack => exact ⟨h.pack, toSet_eq_of_bit fun k => by rw [Operation.apply, h.bit_pack]; rfl⟩
  | ensureBits n =>
    rw [Operation.apply, BitVector.ensureBits, h.growFor_eq]
    exact ⟨h.resized (le_max_left _ _), rfl⟩

/-- A sequence of operations. -/
def run (v : BitVector L) (ops : List (Operation L)) : BitVector L :=
  ops.foldl Operation.apply v

theorem Exact.run (h : v.Exact) (ops : List (Operation L)) (hfits : ∀ op ∈ ops, op.Fits) :
    (v.run ops).Exact ∧ (v.run ops).toSet = ops.foldl Operation.onSet v.toSet := by
  induction ops generalizing v with
  | nil => exact ⟨h, rfl⟩
  | cons op ops ih =>
    obtain ⟨hnext, hset⟩ := h.apply op (hfits op List.mem_cons_self)
    have hrest := ih hnext fun op hop => hfits op (List.mem_cons_of_mem _ hop)
    rw [hset] at hrest
    exact hrest

/-- What the counts and the iterator of a vector say agrees with a set. -/
structure CountsAgree (v : BitVector L) (s : Set ℤ) : Prop where
  elementCount_eq : v.elementCount = s.ncard
  commonElementCount_eq : ∀ v2 : BitVector L, v2.Exact →
    v.commonElementCount v2 = (s ∩ v2.toSet).ncard
  iterates : ∀ startBit, 0 ≤ startBit → startBit < 2 ^ 31 → ∃ bound, ∀ fuel, bound < fuel →
    ∃ l, v.elements (v.start startBit) fuel = some l ∧ l.Pairwise (· < ·) ∧
      ∀ n, n ∈ l ↔ n ∈ s ∧ startBit ≤ n

/-- What the queries of a vector say agrees with a set. -/
structure Agrees (v : BitVector L) (s : Set ℤ) : Prop where
  exact : v.Exact
  get_iff : ∀ n, L.Fits n → (v.get n = true ↔ n ∈ s)
  isEmpty_iff : v.isEmpty = true ↔ s = ∅
  hasMoreThanOneElement_iff : v.hasMoreThanOneElement = true ↔ 1 < s.ncard
  getHighestBitPosition_isGreatest : s.Nonempty → IsGreatest s v.getHighestBitPosition
  equals_iff : ∀ v2 : BitVector L, v2.Exact → (v.equals v2 = true ↔ s = v2.toSet)
  intersects_iff : ∀ v2 : BitVector L, v2.Exact →
    (v.intersects v2 = true ↔ (s ∩ v2.toSet).Nonempty)
  counts : v.numChunks * L.bitsInChunk < 2 ^ 31 → v.CountsAgree s

theorem WellFormed.iterates (h : v.WellFormed) {startBit : ℤ} (hlow : 0 ≤ startBit)
    (hhigh : startBit < 2 ^ 31) : ∃ bound, ∀ fuel, bound < fuel →
      ∃ l, v.elements (v.start startBit) fuel = some l ∧ l.Pairwise (· < ·) ∧
        ∀ n, n ∈ l ↔ n ∈ v.toSet ∧ startBit ≤ n := by
  refine ⟨(v.members startBit).length, fun fuel hfuel => ?_⟩
  by_cases hbehind : v.numChunks * L.bitsInChunk < startBit
  · obtain ⟨fuel, rfl⟩ := Nat.exists_eq_succ_of_ne_zero (Nat.ne_zero_of_lt hfuel)
    refine ⟨[], h.elements_behind hbehind hhigh, List.Pairwise.nil, fun n => ?_⟩
    refine ⟨fun hn => absurd hn List.not_mem_nil, fun hn => ?_⟩
    have := (h.bit_bounds hn.1).2
    omega
  · have hpred : startBit - 1 + 1 = startBit := sub_add_cancel _ _
    have helements := h.elements_eq (n := startBit - 1) (by omega) (by omega)
      (hpred.symm ▸ hfuel)
    rw [hpred] at helements
    exact ⟨v.members startBit, helements, v.members_pairwise startBit, fun n => mem_members_iff h⟩

theorem Exact.agrees (h : v.Exact) : v.Agrees v.toSet where
  exact := h
  get_iff n hn := by rw [h.get_eq hn.getChunkIndex_eq]; rfl
  isEmpty_iff := h.isEmpty_iff
  hasMoreThanOneElement_iff := h.hasMoreThanOneElement_iff
  getHighestBitPosition_isGreatest := h.getHighestBitPosition_isGreatest
  equals_iff _ h2 := h.equals_iff h2
  intersects_iff _ h2 := h.intersects_iff h2
  counts hsize :=
    have hwell : v.WellFormed := ⟨h, hsize⟩
    { elementCount_eq := hwell.elementCount_eq_ncard
      commonElementCount_eq := fun _ h2 => hwell.commonElementCount_eq h2
      iterates := fun _ hlow hhigh => hwell.iterates hlow hhigh }

/-- After every sequence of operations from the empty vector on, the vector stands for the set. -/
theorem run_agrees (ops : List (Operation L)) (hfits : ∀ op ∈ ops, op.Fits) :
    (run new ops).Agrees (ops.foldl Operation.onSet ∅) := by
  have hempty : (new : BitVector L).toSet = ∅ := wellFormed_new.isEmpty_iff.1 rfl
  obtain ⟨h, hset⟩ := wellFormed_new.toExact.run ops hfits
  rw [← hempty, ← hset]
  exact h.agrees

/-- Some bits are set, one is reset, and others come from a second vector. -/
def someOperations : List (Operation ⟨true, false⟩) :=
  [.set 3, .setAllFrom 60 70, .reset 64, .orAssign (new.set 200), .pack]

theorem fits_someOperations : ∀ op ∈ someOperations, op.Fits := by
  intro op hop
  rcases List.mem_cons.1 hop with rfl | hop
  · exact ⟨by decide, by decide⟩
  rcases List.mem_cons.1 hop with rfl | hop
  · exact ⟨by decide, by decide, by decide, by decide⟩
  rcases List.mem_cons.1 hop with rfl | hop
  · exact ⟨by decide, by decide⟩
  rcases List.mem_cons.1 hop with rfl | hop
  · exact (wellFormed_new.set (by decide) (by decide)).toExact
  rcases List.mem_cons.1 hop with rfl | hop
  · trivial
  · exact absurd hop List.not_mem_nil

theorem run_agrees_some : (run new someOperations).Agrees (someOperations.foldl Operation.onSet ∅) :=
  run_agrees someOperations fits_someOperations

/-- The element `2 ^ 31` comes out of the iterator as a negative number. -/
theorem iterator_narrows :
    ¬∃ fuel l, (new.set (2 ^ 31) : BitVector ⟨true, false⟩).elements
        ((new.set (2 ^ 31) : BitVector ⟨true, false⟩).start (2 ^ 31 - 1)) fuel = some l ∧
      ∀ n, n ∈ l ↔ n ∈ (new.set (2 ^ 31) : BitVector ⟨true, false⟩).toSet ∧ 2 ^ 31 - 1 ≤ n := by
  rintro ⟨fuel, l, helements, hmem⟩
  have hstart : (new.set (2 ^ 31) : BitVector ⟨true, false⟩).start (2 ^ 31 - 1) = -2 ^ 31 := by
    decide
  have hmore : (new.set (2 ^ 31) : BitVector ⟨true, false⟩).hasMoreElements (-2 ^ 31) = true := by
    decide
  rw [hstart] at helements
  cases fuel with
  | zero => cases helements
  | succ fuel =>
    rw [elements, if_pos hmore] at helements
    obtain ⟨rest, -, rfl⟩ := Option.map_eq_some_iff.1 helements
    have hlow := ((hmem _).1 List.mem_cons_self).2
    exact absurd hlow (by decide)

end BitVector

end OMR.Compiler
