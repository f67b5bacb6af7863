import OMR.Compiler.BitVectorBits

/-!
# Resetting a range of a bit vector

`resetAll(m, n)` of a `TR_BitVector`, with the indices of the chunks that it reads and writes. A
range that ends in the chunk of the size or behind it makes the vector grow by one chunk too few.
-/

namespace OMR.Compiler

namespace Layout

variable {L : Layout} {k : ℤ}

/-- A loop that takes the masks of bit indices out of a chunk, one after the other. -/
def andNotMasks (L : Layout) (chunk : L.Chunk) (indices : List ℤ) : L.Chunk :=
  indices.foldl (fun c i => c &&& ~~~L.getBitMask i) chunk

theorem hasBit_andNotMasks (c : L.Chunk) (indices : List ℤ) :
    L.hasBit (L.andNotMasks c indices) k = (L.hasBit c k &&
      decide (∀ i ∈ indices, i % (L.bitsInChunk : ℤ) ≠ k % L.bitsInChunk)) := by
  induction indices generalizing c with
  | nil => simp [andNotMasks]
  | cons i indices ih =>
    have hstep : L.andNotMasks c (i :: indices) =
        L.andNotMasks (c &&& ~~~L.getBitMask i) indices := rfl
    rw [hstep, ih, hasBit_and, hasBit_not, hasBit_getBitMask, Bool.and_assoc]
    refine congrArg (L.hasBit c k && ·) ?_
    rw [Bool.eq_iff_iff]
    simp only [Bool.and_eq_true, Bool.not_eq_true', decide_eq_false_iff_not, decide_eq_true_eq,
      List.forall_mem_cons]
    exact and_congr_left' ne_comm

end Layout

namespace BitVector

variable {L : Layout} {v : BitVector L} {k m n : ℤ}

/-- What `resetAll` does to the chunks. -/
def resetBits (L : Layout) (m n : ℤ) (chunks : ℤ → L.Chunk) : ℤ → L.Chunk :=
  let firstChunk := L.getChunkIndex m
  let lastChunk := L.getChunkIndex n
  if firstChunk = lastChunk then
    onChunks firstChunk firstChunk (fun _ c => c &&& ~~~L.getBitMasks m n) chunks
  else
    let i := L.getIndexInChunk m
    let chunks := onChunks firstChunk firstChunk
      (fun _ c => if i > 0 then L.andNotMasks c (countUp i L.bitsInChunk) else 0) chunks
    let j := L.getIndexInChunk n
    let chunks := onChunks lastChunk lastChunk
      (fun _ c =>
        if j < L.bitsInChunk - 1 then L.andNotMasks c (countUp 0 (j + 1)).reverse else 0) chunks
    onChunks (firstChunk + 1) (lastChunk - 1) (fun _ _ => 0) chunks

/-- The chunks that these loops read and write. -/
def resetBitsAccesses (L : Layout) (m n : ℤ) : List ℤ :=
  let firstChunk := L.getChunkIndex m
  let lastChunk := L.getChunkIndex n
  if firstChunk = lastChunk then [firstChunk]
  else firstChunk :: lastChunk :: countUp (firstChunk + 1) lastChunk

/-- The chunks that `resetLowAndHighChunks` reads. -/
def lowAndHighReads (v : BitVector L) (low high : ℤ) : List ℤ :=
  let first := scanUp v.chunks low (high - low + 1).toNat
  if first > high then countUp low (high + 1)
  else
    countUp low (first + 1) ++
      (countUp (scanDown v.chunks high (high - first).toNat) (high + 1)).reverse

/-- `resetAll`, with the chunks that it reads and writes once the vector has its size. -/
def resetAll (v : BitVector L) (m n : ℤ) : BitVector L × List ℤ :=
  let firstChunk := L.getChunkIndex m
  let lastChunk := L.getChunkIndex n
  if v.lastChunkWithNonZero < firstChunk ∨ v.firstChunkWithNonZero > lastChunk then (v, [])
  else
    let v := if lastChunk ≥ v.numChunks then v.setChunkSize (L.getChunkIndex n) else v
    let v := { v with chunks := resetBits L m n v.chunks }
    (v.resetLowAndHighChunks v.firstChunkWithNonZero v.lastChunkWithNonZero,
      resetBitsAccesses L m n ++
        v.lowAndHighReads v.firstChunkWithNonZero v.lastChunkWithNonZero)

/-- What is asked of `resetAll`: every chunk that it touches is there, the range is taken out of the
set, and the first and the last chunk are known. -/
structure ResetsRange (v : BitVector L) (m n : ℤ) : Prop where
  within : ∀ i ∈ (v.resetAll m n).2, 0 ≤ i ∧ i < (v.resetAll m n).1.numChunks
  bit_eq : ∀ k, (v.resetAll m n).1.bit k = (v.bit k && !decide (m ≤ k ∧ k ≤ n))
  exact : (v.resetAll m n).1.Exact

theorem hasBit_firstPart (c : L.Chunk) :
    L.hasBit (if L.getIndexInChunk m > 0 then L.andNotMasks c
        (countUp (L.getIndexInChunk m) L.bitsInChunk) else 0) k =
      (L.hasBit c k && decide (k % (L.bitsInChunk : ℤ) < m % L.bitsInChunk)) := by
  have hk := L.indexInChunk_nonneg k
  have hklt := L.indexInChunk_lt k
  have hm := L.indexInChunk_nonneg m
  rw [Layout.getIndexInChunk]
  split_ifs with hpos
  · rw [Layout.hasBit_andNotMasks]
    refine congrArg (L.hasBit c k && ·) (decide_eq_decide.2 ⟨fun hall => ?_, fun hlt i hi => ?_⟩)
    · by_contra hle
      exact hall _ (mem_countUp.2 ⟨not_lt.1 hle, hklt⟩) (Int.emod_emod _ _)
    · obtain ⟨hge, hilt⟩ := mem_countUp.1 hi
      rw [Int.emod_eq_of_lt (by omega) hilt]
      omega
  · rw [Layout.hasBit_zero, decide_eq_false (by omega), Bool.and_false]

theorem hasBit_lastPart (c : L.Chunk) :
    L.hasBit (if L.getIndexInChunk n < L.bitsInChunk - 1 then
        L.andNotMasks c (countUp 0 (L.getIndexInChunk n + 1)).reverse else 0) k =
      (L.hasBit c k && decide (n % (L.bitsInChunk : ℤ) < k % L.bitsInChunk)) := by
  have hk := L.indexInChunk_nonneg k
  have hklt := L.indexInChunk_lt k
  have hn := L.indexInChunk_lt n
  rw [Layout.getIndexInChunk]
  split_ifs with hlt
  · rw [Layout.hasBit_andNotMasks]
    refine congrArg (L.hasBit c k && ·) (decide_eq_decide.2 ⟨fun hall => ?_, fun hnk i hi => ?_⟩)
    · by_contra hle
      exact hall _ (List.mem_reverse.2 (mem_countUp.2 ⟨hk, by omega⟩)) (Int.emod_emod _ _)
    · obtain ⟨hge, hile⟩ := mem_countUp.1 (List.mem_reverse.1 hi)
      rw [Int.emod_eq_of_lt hge (by omega)]
      omega
  · rw [Layout.hasBit_zero, decide_eq_false (by omega), Bool.and_false]

/-- The loops take the range out of the chunks. -/
theorem hasBit_resetBits (chunks : ℤ → L.Chunk) (hmn : m ≤ n)
    (hm : L.getChunkIndex m = m / L.bitsInChunk) (hn : L.getChunkIndex n = n / L.bitsInChunk) :
    L.hasBit (resetBits L m n chunks (k / L.bitsInChunk)) k =
      (L.hasBit (chunks (k / L.bitsInChunk)) k && !decide (m ≤ k ∧ k ≤ n)) := by
  have hle : m / (L.bitsInChunk : ℤ) ≤ n / L.bitsInChunk := ediv_le_ediv hmn
  rw [resetBits, hm, hn]
  by_cases hsame : m / (L.bitsInChunk : ℤ) = n / L.bitsInChunk
  · rw [if_pos hsame, onChunks_apply]
    by_cases hchunk : k / (L.bitsInChunk : ℤ) = m / L.bitsInChunk
    · rw [if_pos ⟨hchunk.ge, hchunk.le⟩, Layout.hasBit_and, Layout.hasBit_not,
        Layout.hasBit_getBitMasks ((Layout.le_iff_emod_le hsame.symm).1 hmn)]
      refine congrArg (fun inside => L.hasBit _ k && !inside) (decide_eq_decide.2 (and_congr ?_ ?_))
      · exact (Layout.le_iff_emod_le hchunk).symm
      · exact (Layout.le_iff_emod_le (hsame.symm.trans hchunk.symm)).symm
    · have hout : ¬(m ≤ k ∧ k ≤ n) := fun hin =>
        hchunk (le_antisymm ((ediv_le_ediv hin.2).trans hsame.ge) (ediv_le_ediv hin.1))
      rw [if_neg fun hin => hchunk (le_antisymm hin.2 hin.1), decide_eq_false hout]
      exact (Bool.and_true _).symm
  · have hlt : m / (L.bitsInChunk : ℤ) < n / L.bitsInChunk := lt_of_le_of_ne hle hsame
    rw [if_neg hsame, onChunks_apply, onChunks_apply, onChunks_apply]
    rcases lt_trichotomy (k / (L.bitsInChunk : ℤ)) (m / L.bitsInChunk) with hbefore | hfirst | hm
    · have hkm := Layout.lt_of_ediv_lt hbefore
      rw [if_neg (by omega), if_neg (by omega), if_neg (by omega), decide_eq_false (by omega)]
      exact (Bool.and_true _).symm
    · have hkn : k < n := Layout.lt_of_ediv_lt (hfirst.trans_lt hlt)
      rw [if_neg (by omega), if_neg (by omega), if_pos (by omega), hasBit_firstPart]
      refine congrArg (L.hasBit _ k && ·) ?_
      rw [← decide_not, decide_eq_decide, not_and_or, Layout.le_iff_emod_le hfirst]
      omega
    · rcases lt_trichotomy (k / (L.bitsInChunk : ℤ)) (n / L.bitsInChunk) with hn | hlast | hafter
      · have hmk : m < k := Layout.lt_of_ediv_lt hm
        have hkn : k < n := Layout.lt_of_ediv_lt hn
        rw [if_pos (by omega), decide_eq_true (by omega), Layout.hasBit_zero]
        exact (Bool.and_false _).symm
      · have hmk : m < k := Layout.lt_of_ediv_lt hm
        have hnotfirst : ¬(m / (L.bitsInChunk : ℤ) ≤ k / L.bitsInChunk ∧
            k / (L.bitsInChunk : ℤ) ≤ m / L.bitsInChunk) := by omega
        rw [if_neg (by omega), if_pos (by omega), if_neg hnotfirst, hasBit_lastPart]
        refine congrArg (L.hasBit _ k && ·) ?_
        rw [← decide_not, decide_eq_decide, not_and_or, Layout.le_iff_emod_le hlast.symm]
        omega
      · have hnk : n < k := Layout.lt_of_ediv_lt hafter
        rw [if_neg (by omega), if_neg (by omega), if_neg (by omega), decide_eq_false (by omega)]
        exact (Bool.and_true _).symm

/-- Only bits that were set are left. -/
theorem resetBits_ne_zero {chunks : ℤ → L.Chunk} {i : ℤ} (hmn : m ≤ n)
    (hm : L.getChunkIndex m = m / L.bitsInChunk) (hn : L.getChunkIndex n = n / L.bitsInChunk)
    (hi : resetBits L m n chunks i ≠ 0) : chunks i ≠ 0 := by
  obtain ⟨k, rfl, hbit⟩ := exists_hasBit hi i
  rw [hasBit_resetBits chunks hmn hm hn] at hbit
  intro hzero
  rw [hzero, Layout.hasBit_zero, Bool.false_and] at hbit
  exact Bool.noConfusion hbit

theorem mem_resetBitsAccesses {i : ℤ} (hi : i ∈ resetBitsAccesses L m n)
    (hmn : L.getChunkIndex m ≤ L.getChunkIndex n) :
    L.getChunkIndex m ≤ i ∧ i ≤ L.getChunkIndex n := by
  rw [resetBitsAccesses] at hi
  split_ifs at hi with hsame
  · rw [List.mem_singleton.1 hi]
    exact ⟨le_rfl, hsame.le⟩
  · rcases List.mem_cons.1 hi with rfl | hi
    · exact ⟨le_rfl, hmn⟩
    rcases List.mem_cons.1 hi with rfl | hi
    · exact ⟨hmn, le_rfl⟩
    · have := mem_countUp.1 hi
      omega

theorem mem_lowAndHighReads {low high i : ℤ} (hi : i ∈ v.lowAndHighReads low high) :
    low ≤ i ∧ i ≤ high := by
  obtain ⟨hge, hle, -, -⟩ := scanUp_spec v.chunks (high - low + 1).toNat low
  rw [lowAndHighReads] at hi
  generalize scanUp v.chunks low (high - low + 1).toNat = first at hge hle hi
  obtain ⟨hdown, hup, -, -⟩ := scanDown_spec v.chunks (high - first).toNat high
  split_ifs at hi with hempty
  · have := mem_countUp.1 hi
    omega
  · rcases List.mem_append.1 hi with hi | hi
    · have := mem_countUp.1 hi
      omega
    · have := mem_countUp.1 (List.mem_reverse.1 hi)
      omega

theorem resetAll_eq_self (h : v.lastChunkWithNonZero < L.getChunkIndex m ∨
    v.firstChunkWithNonZero > L.getChunkIndex n) : v.resetAll m n = (v, []) := if_pos h

theorem Exact.resetsRange_self (h : v.Exact) (hmchunk : L.getChunkIndex m = m / L.bitsInChunk)
    (hnchunk : L.getChunkIndex n = n / L.bitsInChunk)
    (hout : v.lastChunkWithNonZero < L.getChunkIndex m ∨
      v.firstChunkWithNonZero > L.getChunkIndex n) : v.ResetsRange m n := by
  have hself := resetAll_eq_self hout
  refine ⟨fun i hi => ?_, fun k => ?_, ?_⟩
  · rw [hself] at hi
    exact absurd hi List.not_mem_nil
  · rw [hself]
    cases hbit : v.bit k with
    | false => rfl
    | true =>
      obtain ⟨-, hfirst, hlast, -⟩ := h.chunk_bounds (chunk_ne_zero_of_bit hbit)
      rw [decide_eq_false, Bool.not_false, Bool.and_true]
      rintro ⟨hmk, hkn⟩
      have hmk' := ediv_le_ediv (L := L) hmk
      have hkn' := ediv_le_ediv (L := L) hkn
      omega
  · rw [hself]
    exact h

theorem Exact.resetsRange_inside (h : v.Exact) (hmn : m ≤ n)
    (hmchunk : L.getChunkIndex m = m / L.bitsInChunk)
    (hnchunk : L.getChunkIndex n = n / L.bitsInChunk) (hm : 0 ≤ m / (L.bitsInChunk : ℤ))
    (hlast : m / (L.bitsInChunk : ℤ) ≤ v.lastChunkWithNonZero)
    (hfirst : v.firstChunkWithNonZero ≤ n / L.bitsInChunk)
    (hsize : n / (L.bitsInChunk : ℤ) < v.numChunks) : v.ResetsRange m n := by
  have heq : v.resetAll m n =
      (({ v with chunks := resetBits L m n v.chunks } : BitVector L).resetLowAndHighChunks
        v.firstChunkWithNonZero v.lastChunkWithNonZero,
      resetBitsAccesses L m n ++
        ({ v with chunks := resetBits L m n v.chunks } : BitVector L).lowAndHighReads
          v.firstChunkWithNonZero v.lastChunkWithNonZero) := by
    rw [resetAll, hmchunk, hnchunk, if_neg (by omega), if_neg (by omega)]
  obtain ⟨-, hlastlt⟩ := h.last_lt
  have hfirst0 := (h.first_ne_zero (hm.trans hlast)).1
  refine ⟨fun i hi => ?_, fun k => ?_, ?_⟩
  · rw [heq] at hi ⊢
    rw [numChunks_resetLowAndHighChunks]
    rcases List.mem_append.1 hi with hi | hi
    · have := mem_resetBitsAccesses hi (by rw [hmchunk, hnchunk]; exact ediv_le_ediv hmn)
      rw [hmchunk, hnchunk] at this
      exact ⟨hm.trans this.1, this.2.trans_lt hsize⟩
    · have := mem_lowAndHighReads hi
      exact ⟨hfirst0.trans this.1, this.2.trans_lt hlastlt⟩
  · rw [heq, bit_resetLowAndHighChunks]
    exact hasBit_resetBits v.chunks hmn hmchunk hnchunk
  · rw [heq]
    exact exact_resetLowAndHighChunks h.numChunks_nonneg hfirst0 hlastlt fun i hi =>
      (h.chunk_bounds (resetBits_ne_zero hmn hmchunk hnchunk hi)).2.imp_right And.left

/-- When the vector grows, its size is the number of the last chunk that is written. -/
theorem resetAll_grown (hmchunk : L.getChunkIndex m = m / L.bitsInChunk)
    (hnchunk : L.getChunkIndex n = n / L.bitsInChunk)
    (hlast : m / (L.bitsInChunk : ℤ) ≤ v.lastChunkWithNonZero)
    (hfirst : v.firstChunkWithNonZero ≤ n / L.bitsInChunk)
    (hsize : v.numChunks ≤ n / (L.bitsInChunk : ℤ)) :
    n / (L.bitsInChunk : ℤ) ∈ (v.resetAll m n).2 ∧
      (v.resetAll m n).1.numChunks = n / L.bitsInChunk := by
  rw [resetAll, hmchunk, hnchunk, if_neg (by omega), if_pos hsize]
  refine ⟨List.mem_append_left _ ?_, ?_⟩
  · rw [resetBitsAccesses, hmchunk, hnchunk]
    split_ifs with hsame
    · rw [hsame]
      exact List.mem_cons_self
    · exact List.mem_cons_of_mem _ List.mem_cons_self
  · rw [numChunks_resetLowAndHighChunks]
    exact numChunks_setChunkSize _

/-- `resetAll` does what is asked of it exactly if the range ends in front of the size, or begins
behind the last chunk that is not zero. -/
theorem resetAll_iff (h : v.Exact) (hm : 0 ≤ m) (hmn : m ≤ n) (hn : n / L.bitsInChunk < 2 ^ 31) :
    v.ResetsRange m n ↔
      n / L.bitsInChunk < v.numChunks ∨ v.lastChunkWithNonZero < m / L.bitsInChunk := by
  have hle : m / (L.bitsInChunk : ℤ) ≤ n / L.bitsInChunk := ediv_le_ediv hmn
  have hnonneg : 0 ≤ m / (L.bitsInChunk : ℤ) := ediv_nonneg_iff.2 hm
  have hmchunk : L.getChunkIndex m = m / L.bitsInChunk := toInt32_of_lt (by omega) (by omega)
  have hnchunk : L.getChunkIndex n = n / L.bitsInChunk := toInt32_of_lt (by omega) hn
  obtain ⟨-, hlastlt⟩ := h.last_lt
  constructor
  · intro hresets
    by_contra hgrows
    rw [not_or, not_lt, not_lt] at hgrows
    obtain ⟨hsize, hlast⟩ := hgrows
    have hfirst := (h.chunk_bounds (h.first_ne_zero (hnonneg.trans hlast)).2).2.2.2
    obtain ⟨hmem, hnum⟩ := resetAll_grown hmchunk hnchunk hlast (by omega) hsize
    have := (hresets.within _ hmem).2
    omega
  · intro hok
    by_cases hout : v.lastChunkWithNonZero < L.getChunkIndex m ∨
        v.firstChunkWithNonZero > L.getChunkIndex n
    · exact h.resetsRange_self hmchunk hnchunk hout
    · rw [hmchunk, hnchunk] at hout
      exact h.resetsRange_inside hmn hmchunk hnchunk hnonneg (by omega) (by omega) (by omega)

theorem exact_set_zero : (new.set 0 : BitVector ⟨true, false⟩).Exact :=
  (wellFormed_new.set le_rfl (by decide)).toExact

theorem resetAll_iff_zero :
    (new.set 0 : BitVector ⟨true, false⟩).ResetsRange 0 63 ↔
      (63 : ℤ) / (Layout.bitsInChunk ⟨true, false⟩ : ℤ) <
          (new.set 0 : BitVector ⟨true, false⟩).numChunks ∨
        (new.set 0 : BitVector ⟨true, false⟩).lastChunkWithNonZero <
          (0 : ℤ) / (Layout.bitsInChunk ⟨true, false⟩ : ℤ) :=
  resetAll_iff exact_set_zero le_rfl (by decide) (by decide)

/-- The second of two chunks is written although the vector has only one. -/
theorem resetAll_writesBehind : ¬(new.set 0 : BitVector ⟨true, false⟩).ResetsRange 0 64 :=
  fun h => absurd (h.within 1 (by decide)).2 (by decide)

end BitVector

end OMR.Compiler
