import OMR.Compiler.BitVectorRuns

/-!
# A bit vector and a sparse vector

The operations of a `TR_BitVector` with a vector of another type, which is known by what its cursor
goes over: its members in increasing order, as numbers of 32 bits.
-/

namespace OMR.Compiler

namespace BitVector

variable {L : Layout} {v : BitVector L} {sparse : List ℤ} {k n : ℤ}

/-- `operator=` with a sparse vector. -/
def assignSparse (v : BitVector L) (sparse : List ℤ) : BitVector L :=
  sparse.foldl set v.empty

/-- `operator-=` with a sparse vector. -/
def subAssignSparse (v : BitVector L) (sparse : List ℤ) : BitVector L :=
  if v.isEmpty ∨ sparse = [] then v
  else
    let highBit := v.getHighestBitPosition % 2 ^ 32
    let v := (sparse.takeWhile fun bi => decide (bi ≤ highBit)).foldl
      (fun v bi => v.reset bi false) v
    v.resetLowAndHighChunks v.firstChunkWithNonZero v.lastChunkWithNonZero

/-- The loop of `operator&=` over `fuel` chunks from `chunk` on, with what is left of the cursor:
the chunk at which it stops, and the chunks. -/
def andLoop (L : Layout) (chunks : ℤ → L.Chunk) (chunk : ℤ) (cursor : List ℤ) :
    ℕ → ℤ × (ℤ → L.Chunk)
  | 0 => (chunk, chunks)
  | fuel + 1 =>
    let cursor := cursor.dropWhile fun bi => decide (chunk > L.getChunkIndex bi)
    if cursor = [] then (chunk, chunks)
    else
      let c := L.orMasks 0 (cursor.takeWhile fun bi => decide (chunk = L.getChunkIndex bi))
      andLoop L (onChunks chunk chunk (fun _ old => old &&& c) chunks) (chunk + 1)
        (cursor.dropWhile fun bi => decide (chunk = L.getChunkIndex bi)) fuel

/-- `operator&=` with a sparse vector. -/
def andAssignSparse (v : BitVector L) (sparse : List ℤ) : BitVector L :=
  if v.isEmpty then v
  else if sparse = [] then v.empty
  else
    let low := v.firstChunkWithNonZero
    let high := v.lastChunkWithNonZero
    let stopped := andLoop L v.chunks low sparse (high - low + 1).toNat
    let chunks := onChunks stopped.1 (high - 1) (fun _ _ => 0) stopped.2
    resetLowAndHighChunks { v with chunks := chunks } low high

/-- `operator|=` with a sparse vector. -/
def orAssignSparse (v : BitVector L) (sparse : List ℤ) : BitVector L :=
  if sparse = [] then v
  else if v.isEmpty then v.assignSparse sparse
  else
    let first := sparse.headD 0
    let last := sparse.getLastD 0
    let v := v.ensureBits last
    { v with
      chunks := sparse.foldl (fun chunks bi => onChunks (L.getChunkIndex bi) (L.getChunkIndex bi)
        (fun _ c => c ||| L.getBitMask bi) chunks) v.chunks
      firstChunkWithNonZero :=
        if v.firstChunkWithNonZero > L.getChunkIndex first then L.getChunkIndex first
        else v.firstChunkWithNonZero
      lastChunkWithNonZero :=
        if v.lastChunkWithNonZero < L.getChunkIndex last then L.getChunkIndex last
        else v.lastChunkWithNonZero }

/-- What a cursor goes over. -/
structure IsSparse (sparse : List ℤ) : Prop where
  sorted : sparse.Pairwise (· < ·)
  bounds : ∀ n ∈ sparse, 0 ≤ n ∧ n < 2 ^ 32

theorem fits_of_lt (hn : 0 ≤ n) (hlt : n < 2 ^ 32) : L.Fits n := by
  have hwide : 32 ≤ L.bitsInChunk := by
    unfold Layout.bitsInChunk Layout.shift
    split <;> decide
  have hpos : (0 : ℤ) < L.bitsInChunk := by exact_mod_cast L.bitsInChunk_pos
  have hchunk : n / (L.bitsInChunk : ℤ) < 2 ^ 31 - 1 :=
    (Int.ediv_lt_iff_lt_mul hpos).2 (by omega)
  exact ⟨hn, by omega⟩

theorem IsSparse.fits (h : IsSparse sparse) (hn : n ∈ sparse) : L.Fits n :=
  fits_of_lt (h.bounds n hn).1 (h.bounds n hn).2

/-! ### Lists that increase -/

section sorted

variable {p : ℤ → Bool} {l : List ℤ}

/-- In a list that increases a condition that holds up to some point holds of a first part. -/
theorem mem_dropWhile_iff (h : l.Pairwise (· < ·))
    (hp : ∀ a ∈ l, ∀ b ∈ l, a < b → p b = true → p a = true) :
    n ∈ l.dropWhile p ↔ n ∈ l ∧ p n = false := by
  induction l with
  | nil => simp
  | cons bi l ih =>
    rw [List.dropWhile_cons]
    cases hbi : p bi with
    | true =>
      rw [if_pos rfl, List.mem_cons, ih h.of_cons fun a ha b hb =>
        hp a (List.mem_cons_of_mem _ ha) b (List.mem_cons_of_mem _ hb)]
      constructor
      · exact fun hn => ⟨.inr hn.1, hn.2⟩
      · rintro ⟨rfl | hn, hpn⟩
        · rw [hbi] at hpn
          exact Bool.noConfusion hpn
        · exact ⟨hn, hpn⟩
    | false =>
      rw [if_neg Bool.false_ne_true, List.mem_cons]
      constructor
      · rintro (rfl | hn)
        · exact ⟨.inl rfl, hbi⟩
        · refine ⟨.inr hn, Bool.eq_false_iff.2 fun hpn => ?_⟩
          have := hp bi List.mem_cons_self n (List.mem_cons_of_mem _ hn)
            (List.rel_of_pairwise_cons h hn) hpn
          rw [hbi] at this
          exact Bool.noConfusion this
      · exact And.left

theorem mem_takeWhile_iff (h : l.Pairwise (· < ·))
    (hp : ∀ a ∈ l, ∀ b ∈ l, a < b → p b = true → p a = true) :
    n ∈ l.takeWhile p ↔ n ∈ l ∧ p n = true := by
  induction l with
  | nil => simp
  | cons bi l ih =>
    rw [List.takeWhile_cons]
    cases hbi : p bi with
    | true =>
      rw [if_pos rfl, List.mem_cons, List.mem_cons,
        ih h.of_cons fun a ha b hb =>
          hp a (List.mem_cons_of_mem _ ha) b (List.mem_cons_of_mem _ hb)]
      constructor
      · rintro (rfl | hn)
        · exact ⟨.inl rfl, hbi⟩
        · exact ⟨.inr hn.1, hn.2⟩
      · rintro ⟨rfl | hn, hpn⟩
        · exact .inl rfl
        · exact .inr ⟨hn, hpn⟩
    | false =>
      rw [if_neg Bool.false_ne_true]
      refine ⟨fun hn => absurd hn List.not_mem_nil, fun hn => ?_⟩
      rcases List.mem_cons.1 hn.1 with rfl | hmem
      · rw [hbi] at hn
        exact Bool.noConfusion hn.2
      · have := hp bi List.mem_cons_self n hn.1 (List.rel_of_pairwise_cons h hmem) hn.2
        rw [hbi] at this
        exact Bool.noConfusion this

end sorted

/-! ### Assignment -/

theorem foldl_onSet_set (s : Set ℤ) :
    ((sparse.map Operation.set : List (Operation L)).foldl Operation.onSet s) =
      s ∪ {n | n ∈ sparse} := by
  induction sparse generalizing s with
  | nil =>
    refine Set.ext fun n => ?_
    simp
  | cons bi sparse ih =>
    rw [List.map_cons, List.foldl_cons, ih]
    refine Set.ext fun n => ?_
    simp only [Operation.onSet, Set.mem_union, Set.mem_insert_iff, Set.mem_ofPred_eq,
      List.mem_cons]
    tauto

theorem Exact.assignSparse (h : v.Exact) (hs : IsSparse sparse) :
    (v.assignSparse sparse).Exact ∧ (v.assignSparse sparse).toSet = {n | n ∈ sparse} := by
  have hrun : v.assignSparse sparse = v.empty.run (sparse.map Operation.set) := by
    rw [BitVector.run, List.foldl_map]
    rfl
  have hempty : v.empty.toSet = ∅ := h.empty.isEmpty_iff.1 rfl
  have hfits : ∀ op ∈ (sparse.map Operation.set : List (Operation L)), op.Fits := by
    intro op hop
    obtain ⟨n, hn, rfl⟩ := List.mem_map.1 hop
    exact hs.fits hn
  obtain ⟨hexact, hset⟩ := h.empty.run _ hfits
  rw [foldl_onSet_set, hempty, Set.empty_union] at hset
  rw [hrun]
  exact ⟨hexact, hset⟩

/-! ### Difference -/

theorem bit_reset_of_within (hn : L.getChunkIndex n = n / L.bitsInChunk)
    (hwithin : ∀ i, v.chunks i ≠ 0 → v.firstChunkWithNonZero ≤ i ∧ i ≤ v.lastChunkWithNonZero)
    (k : ℤ) : (v.reset n false).bit k = (v.bit k && !decide (k = n)) := by
  rw [BitVector.reset, hn]
  dsimp only
  split_ifs with hout hne hempty
  · refine bit_and_ne (bit_eq_false_of_chunk ?_ rfl) k
    by_contra hne
    have := hwithin _ hne
    omega
  · exact hempty.1.elim
  · exact hasBit_resetChunk v.chunks n k
  · exact bit_and_ne (bit_eq_false_of_chunk (not_not.1 hne) rfl) k

/-- What a loop of `reset` with `updateLowHigh` off leaves of a vector. -/
structure ResetWithin (v w : BitVector L) : Prop where
  numChunks_eq : w.numChunks = v.numChunks
  first_eq : w.firstChunkWithNonZero = v.firstChunkWithNonZero
  last_eq : w.lastChunkWithNonZero = v.lastChunkWithNonZero
  within : ∀ i, w.chunks i ≠ 0 → v.firstChunkWithNonZero ≤ i ∧ i ≤ v.lastChunkWithNonZero

theorem Exact.resetWithin (h : v.Exact) : v.ResetWithin v :=
  ⟨rfl, rfl, rfl, fun _ hi => (h.chunk_bounds hi).2.imp_right And.left⟩

theorem ResetWithin.reset {w : BitVector L} (h : v.ResetWithin w)
    (hn : L.getChunkIndex n = n / L.bitsInChunk) : v.ResetWithin (w.reset n false) := by
  rw [BitVector.reset, hn]
  dsimp only
  split_ifs with hout hne hempty
  · exact h
  · exact hempty.1.elim
  · exact ⟨h.numChunks_eq, h.first_eq, h.last_eq, fun i hi => h.within i (resetChunk_ne_zero hi)⟩
  · exact h

theorem ResetWithin.bit_reset {w : BitVector L} (h : v.ResetWithin w)
    (hn : L.getChunkIndex n = n / L.bitsInChunk) (k : ℤ) :
    (w.reset n false).bit k = (w.bit k && !decide (k = n)) :=
  bit_reset_of_within hn (fun i hi => by
    rw [h.first_eq, h.last_eq]
    exact h.within i hi) k

theorem ResetWithin.foldl {w : BitVector L} (h : v.ResetWithin w) {l : List ℤ}
    (hl : ∀ n ∈ l, L.Fits n) :
    v.ResetWithin (l.foldl (fun v bi => v.reset bi false) w) ∧
      ∀ k, (l.foldl (fun v bi => v.reset bi false) w).bit k = (w.bit k && !decide (k ∈ l)) := by
  induction l generalizing w with
  | nil => exact ⟨h, fun k => by simp⟩
  | cons bi l ih =>
    have hchunk := (hl bi List.mem_cons_self).getChunkIndex_eq
    obtain ⟨hwithin, hbit⟩ := ih (h.reset hchunk) fun n hn => hl n (List.mem_cons_of_mem _ hn)
    refine ⟨hwithin, fun k => (hbit k).trans ?_⟩
    rw [h.bit_reset hchunk, Bool.and_assoc, ← Bool.not_or]
    refine congrArg (fun inside => w.bit k && !inside) ?_
    rw [Bool.eq_iff_iff, Bool.or_eq_true, decide_eq_true_eq, decide_eq_true_eq, decide_eq_true_eq,
      List.mem_cons]

/-- The difference takes away what is not above the highest bit at 32 bits. -/
theorem Exact.subAssignSparse (h : v.Exact) (hs : IsSparse sparse) :
    (v.subAssignSparse sparse).Exact ∧ (v.subAssignSparse sparse).toSet =
      v.toSet \ {n | n ∈ sparse ∧ n ≤ v.getHighestBitPosition % 2 ^ 32} := by
  rw [BitVector.subAssignSparse]
  split_ifs with hnone
  · refine ⟨h, ?_⟩
    rcases hnone with hempty | rfl
    · rw [h.isEmpty_iff.1 hempty, Set.empty_sdiff]
    · refine (Set.ext fun n => ?_ : _ = _)
      simp
  · rw [not_or] at hnone
    have hlast : 0 ≤ v.lastChunkWithNonZero := not_lt.1 fun hneg => hnone.1 (decide_eq_true hneg)
    obtain ⟨hwithin, hbit⟩ := h.resetWithin.foldl
      (l := sparse.takeWhile fun bi => decide (bi ≤ v.getHighestBitPosition % 2 ^ 32))
      fun n hn => hs.fits (List.takeWhile_subset _ hn)
    dsimp only
    generalize (sparse.takeWhile fun bi =>
      decide (bi ≤ v.getHighestBitPosition % 2 ^ 32)).foldl
      (fun v bi => v.reset bi false) v = w at hwithin hbit
    refine ⟨exact_resetLowAndHighChunks ?_ ?_ ?_ fun i hi => ?_, toSet_eq_of_bit fun k => ?_⟩
    · rw [hwithin.numChunks_eq]
      exact h.numChunks_nonneg
    · rw [hwithin.first_eq]
      exact (h.first_ne_zero hlast).1
    · rw [hwithin.last_eq, hwithin.numChunks_eq]
      exact h.last_lt.2
    · rw [hwithin.first_eq, hwithin.last_eq]
      exact hwithin.within i hi
    · rw [bit_resetLowAndHighChunks, hbit, Bool.and_eq_true, Bool.not_eq_true',
        decide_eq_false_iff_not, mem_takeWhile_iff hs.sorted fun a _ b _ hab hb =>
          decide_eq_true (hab.le.trans (of_decide_eq_true hb)), decide_eq_true_eq]
      rfl

/-! ### Union -/

theorem hasBit_orLoop (chunks : ℤ → L.Chunk) (hs : ∀ n ∈ sparse, L.Fits n) (k : ℤ) :
    L.hasBit (sparse.foldl (fun chunks bi => onChunks (L.getChunkIndex bi) (L.getChunkIndex bi)
        (fun _ c => c ||| L.getBitMask bi) chunks) chunks (k / L.bitsInChunk)) k =
      (L.hasBit (chunks (k / L.bitsInChunk)) k || decide (k ∈ sparse)) := by
  induction sparse generalizing chunks with
  | nil => simp
  | cons bi sparse ih =>
    have hchunk := (hs bi List.mem_cons_self).getChunkIndex_eq
    rw [List.foldl_cons, ih _ fun n hn => hs n (List.mem_cons_of_mem _ hn), hchunk,
      hasBit_setChunk, Bool.or_assoc]
    refine congrArg (L.hasBit (chunks _) k || ·) ?_
    rw [Bool.eq_iff_iff, Bool.or_eq_true, decide_eq_true_eq, decide_eq_true_eq, decide_eq_true_eq,
      List.mem_cons]

/-- The last element of a list that increases is the greatest. -/
theorem getLastD_spec {l : List ℤ} {d : ℤ} (h : (d :: l).Pairwise (· < ·)) :
    l.getLastD d ∈ d :: l ∧ ∀ n ∈ d :: l, n ≤ l.getLastD d := by
  induction l generalizing d with
  | nil => exact ⟨List.mem_cons_self, fun n hn => (List.mem_singleton.1 hn).le⟩
  | cons bi l ih =>
    obtain ⟨hmem, hge⟩ := ih h.of_cons
    have hlt := List.rel_of_pairwise_cons h List.mem_cons_self
    rw [List.getLastD_cons]
    refine ⟨List.mem_cons_of_mem _ hmem, fun n hn => ?_⟩
    rcases List.mem_cons.1 hn with rfl | hn
    · exact hlt.le.trans (hge bi List.mem_cons_self)
    · exact hge n hn

theorem Exact.orAssignSparse (h : v.Exact) (hs : IsSparse sparse) :
    (v.orAssignSparse sparse).Exact ∧
      (v.orAssignSparse sparse).toSet = v.toSet ∪ {n | n ∈ sparse} := by
  by_cases hnone : sparse = []
  · have hself : v.orAssignSparse sparse = v := if_pos hnone
    rw [hself, hnone]
    exact ⟨h, by simp⟩
  by_cases hempty : v.isEmpty = true
  · have hassign : v.orAssignSparse sparse = v.assignSparse sparse := by
      rw [BitVector.orAssignSparse, if_neg hnone, if_pos hempty]
    rw [hassign, h.isEmpty_iff.1 hempty, Set.empty_union]
    exact h.assignSparse hs
  obtain ⟨first, rest, rfl⟩ := List.exists_cons_of_ne_nil hnone
  obtain ⟨hlastmem, hge⟩ := getLastD_spec hs.sorted
  generalize hlasteq : rest.getLastD first = last at hlastmem hge
  have hfirstfits := hs.fits (L := L) List.mem_cons_self
  have hlastfits := hs.fits (L := L) hlastmem
  have hfirstlast := hge first List.mem_cons_self
  have hlow : 0 ≤ first / (L.bitsInChunk : ℤ) := ediv_nonneg_iff.2 hfirstfits.nonneg
  have hvlast : ¬v.lastChunkWithNonZero < 0 := fun hneg => hempty (decide_eq_true hneg)
  have hvlastlt := h.last_lt.2
  have hfields : v.orAssignSparse (first :: rest) =
      { v.resized (max v.numChunks (last / L.bitsInChunk + 1)) with
        chunks := (first :: rest).foldl (fun chunks bi =>
          onChunks (L.getChunkIndex bi) (L.getChunkIndex bi) (fun _ c => c ||| L.getBitMask bi)
            chunks) v.chunks
        firstChunkWithNonZero := min v.firstChunkWithNonZero (first / L.bitsInChunk)
        lastChunkWithNonZero := max v.lastChunkWithNonZero (last / L.bitsInChunk) } := by
    rw [BitVector.orAssignSparse, if_neg hnone, if_neg hempty, List.headD_cons, List.getLastD_cons,
      hlasteq]
    dsimp only
    rw [BitVector.ensureBits, hfirstfits.getChunkIndex_eq, hlastfits.getChunkIndex_eq,
      h.growFor_eq]
    have hfirst : (if v.firstChunkWithNonZero > first / (L.bitsInChunk : ℤ) then
        first / (L.bitsInChunk : ℤ) else v.firstChunkWithNonZero) =
        min v.firstChunkWithNonZero (first / L.bitsInChunk) := by
      split_ifs <;> omega
    have hlast : (if v.lastChunkWithNonZero < last / (L.bitsInChunk : ℤ) then
        last / (L.bitsInChunk : ℤ) else v.lastChunkWithNonZero) =
        max v.lastChunkWithNonZero (last / L.bitsInChunk) := by
      split_ifs <;> omega
    have hfirstsame : (v.resized (max v.numChunks (last / L.bitsInChunk + 1))).firstChunkWithNonZero =
        v.firstChunkWithNonZero := if_neg hvlast
    have hlastsame : (v.resized (max v.numChunks (last / L.bitsInChunk + 1))).lastChunkWithNonZero =
        v.lastChunkWithNonZero := rfl
    rw [hfirstsame, hlastsame, hfirst, hlast]
    rfl
  have hbit (k : ℤ) : (v.orAssignSparse (first :: rest)).bit k =
      (v.bit k || decide (k ∈ first :: rest)) := by
    rw [hfields]
    exact hasBit_orLoop v.chunks (fun n hn => hs.fits hn) k
  refine ⟨h.extend hlow (ediv_le_ediv hfirstlast) ?_ ?_ ?_ ?_ ⟨first, rfl, ?_⟩ ⟨last, rfl, ?_⟩
    (fun k hk => ?_) fun k hk => ?_, toSet_eq_of_bit fun k => ?_⟩
  · rw [hfields]
    exact le_max_left _ _
  · rw [hfields]
    exact (Int.lt_succ _).trans_le (le_max_right _ _)
  · rw [hfields, if_neg hvlast]
  · rw [hfields]
  · rw [hbit, decide_eq_true List.mem_cons_self, Bool.or_true]
  · rw [hbit, decide_eq_true hlastmem, Bool.or_true]
  · rw [hbit, hk, Bool.true_or]
  · rw [hbit, Bool.or_eq_true, decide_eq_true_eq] at hk
    refine hk.imp_right fun hk => ⟨ediv_le_ediv ?_, ediv_le_ediv (hge k hk)⟩
    rcases List.mem_cons.1 hk with rfl | hk
    · exact le_rfl
    · exact (List.rel_of_pairwise_cons hs.sorted hk).le
  · rw [hbit, Bool.or_eq_true, decide_eq_true_eq]
    rfl

/-! ### Intersection -/

/-- A cursor within a sparse vector. -/
structure IsCursor (L : Layout) (cursor : List ℤ) : Prop where
  sorted : cursor.Pairwise (· < ·)
  fits : ∀ n ∈ cursor, L.Fits n

theorem IsSparse.isCursor (h : IsSparse sparse) : IsCursor L sparse :=
  ⟨h.sorted, fun _ hn => h.fits hn⟩

section cursor

variable {cursor : List ℤ} {chunk : ℤ}

theorem IsCursor.of_sublist (h : IsCursor L cursor) {rest : List ℤ} (hrest : rest.Sublist cursor) :
    IsCursor L rest := ⟨h.sorted.sublist hrest, fun n hn => h.fits n (hrest.subset hn)⟩

theorem IsCursor.getChunkIndex_le (h : IsCursor L cursor) {a b : ℤ} (ha : a ∈ cursor)
    (hb : b ∈ cursor) (hab : a < b) : L.getChunkIndex a ≤ L.getChunkIndex b := by
  rw [(h.fits a ha).getChunkIndex_eq, (h.fits b hb).getChunkIndex_eq]
  exact ediv_le_ediv hab.le

/-- What is left of a cursor when it has skipped the members before a chunk. -/
theorem IsCursor.mem_skipped (h : IsCursor L cursor) :
    n ∈ cursor.dropWhile (fun bi => decide (chunk > L.getChunkIndex bi)) ↔
      n ∈ cursor ∧ chunk ≤ n / L.bitsInChunk := by
  have hp (a : ℤ) (ha : a ∈ cursor) (b : ℤ) (hb : b ∈ cursor) (hab : a < b)
      (hbefore : decide (chunk > L.getChunkIndex b) = true) :
      decide (chunk > L.getChunkIndex a) = true :=
    decide_eq_true ((h.getChunkIndex_le ha hb hab).trans_lt (of_decide_eq_true hbefore))
  rw [mem_dropWhile_iff h.sorted hp]
  refine and_congr_right fun hn => ?_
  rw [decide_eq_false_iff_not, (h.fits n hn).getChunkIndex_eq, gt_iff_lt, not_lt]

/-- A cursor at a chunk passes the members of the chunk before all others. -/
theorem IsCursor.same_chunk (h : IsCursor L cursor)
    (hle : ∀ n ∈ cursor, chunk ≤ n / L.bitsInChunk) (a : ℤ) (ha : a ∈ cursor) (b : ℤ)
    (hb : b ∈ cursor) (hab : a < b) (hsame : decide (chunk = L.getChunkIndex b) = true) :
    decide (chunk = L.getChunkIndex a) = true := by
  have hmono := h.getChunkIndex_le ha hb hab
  have hge := hle a ha
  rw [← (h.fits a ha).getChunkIndex_eq] at hge
  rw [decide_eq_true_eq] at hsame ⊢
  exact le_antisymm hge (hmono.trans hsame.ge)

theorem IsCursor.mem_taken (h : IsCursor L cursor) (hle : ∀ n ∈ cursor, chunk ≤ n / L.bitsInChunk) :
    n ∈ cursor.takeWhile (fun bi => decide (chunk = L.getChunkIndex bi)) ↔
      n ∈ cursor ∧ n / L.bitsInChunk = chunk := by
  rw [mem_takeWhile_iff h.sorted (h.same_chunk hle)]
  refine and_congr_right fun hn => ?_
  rw [decide_eq_true_eq, (h.fits n hn).getChunkIndex_eq, eq_comm]

theorem IsCursor.mem_left (h : IsCursor L cursor) (hle : ∀ n ∈ cursor, chunk ≤ n / L.bitsInChunk) :
    n ∈ cursor.dropWhile (fun bi => decide (chunk = L.getChunkIndex bi)) ↔
      n ∈ cursor ∧ chunk < n / L.bitsInChunk := by
  rw [mem_dropWhile_iff h.sorted (h.same_chunk hle)]
  refine and_congr_right fun hn => ?_
  rw [decide_eq_false_iff_not, (h.fits n hn).getChunkIndex_eq]
  exact ⟨fun hne => lt_of_le_of_ne (hle n hn) hne, ne_of_lt⟩

/-- The bits of the members of a chunk, as a word. -/
theorem IsCursor.hasBit_taken (h : IsCursor L cursor)
    (hle : ∀ n ∈ cursor, chunk ≤ n / L.bitsInChunk) (hk : k / L.bitsInChunk = chunk) :
    L.hasBit (L.orMasks 0 (cursor.takeWhile fun bi => decide (chunk = L.getChunkIndex bi))) k =
      decide (k ∈ cursor) := by
  rw [Layout.hasBit_orMasks, Layout.hasBit_zero, Bool.false_or, decide_eq_decide]
  constructor
  · rintro ⟨i, hi, hmod⟩
    obtain ⟨hmem, hchunk⟩ := (h.mem_taken hle).1 hi
    have heq : k = i := by
      rw [← Int.mul_ediv_add_emod k L.bitsInChunk, ← Int.mul_ediv_add_emod i L.bitsInChunk, hk,
        hchunk, hmod]
    exact heq ▸ hmem
  · exact fun hmem => ⟨k, (h.mem_taken hle).2 ⟨hmem, hk⟩, rfl⟩

end cursor

/-- The loop of `operator&=` ends at `stopped`: the chunks before keep the bits of the cursor, and
it stops early only when no member is left. -/
structure AndLoopEnds (L : Layout) (chunks : ℤ → L.Chunk) (chunk : ℤ) (cursor : List ℤ) (fuel : ℕ)
    (stopped : ℤ) (left : ℤ → L.Chunk) : Prop where
  ge : chunk ≤ stopped
  le : stopped ≤ chunk + fuel
  unchanged : ∀ i, i < chunk ∨ stopped ≤ i → left i = chunks i
  hasBit_eq : ∀ k, chunk ≤ k / L.bitsInChunk → k / L.bitsInChunk < stopped →
    L.hasBit (left (k / L.bitsInChunk)) k =
      (L.hasBit (chunks (k / L.bitsInChunk)) k && decide (k ∈ cursor))
  none_left : stopped < chunk + fuel → ∀ n ∈ cursor, n / L.bitsInChunk < stopped
  early_iff : stopped < chunk + fuel ↔
    0 < fuel ∧ ∀ n ∈ cursor, n / L.bitsInChunk < chunk + fuel - 1

/-- Before the last chunk only an exhausted cursor stops the loop. -/
theorem AndLoopEnds.stop {cursor : List ℤ} (chunks : ℤ → L.Chunk) (chunk : ℤ) (fuel : ℕ)
    (hbefore : ∀ n ∈ cursor, n / (L.bitsInChunk : ℤ) < chunk) :
    AndLoopEnds L chunks chunk cursor (fuel + 1) chunk chunks where
  ge := le_rfl
  le := by omega
  unchanged _ _ := rfl
  hasBit_eq _ hge hlt := absurd hge hlt.not_ge
  none_left _ := hbefore
  early_iff := by
    refine ⟨fun _ => ⟨by omega, fun n hn => ?_⟩, fun _ => by omega⟩
    have := hbefore n hn
    push_cast
    omega

/-- A chunk is intersected, and the loop goes on with the members behind it. -/
theorem AndLoopEnds.next {cursor rest : List ℤ} {chunks left : ℤ → L.Chunk} {chunk stopped : ℤ}
    {fuel : ℕ} {c : L.Chunk} (hcursor : ∃ n ∈ cursor, chunk ≤ n / L.bitsInChunk)
    (hrest : ∀ n, n ∈ rest ↔ n ∈ cursor ∧ chunk < n / L.bitsInChunk)
    (hc : ∀ k, k / L.bitsInChunk = chunk → L.hasBit c k = decide (k ∈ cursor))
    (h : AndLoopEnds L (onChunks chunk chunk (fun _ old => old &&& c) chunks) (chunk + 1) rest fuel
      stopped left) : AndLoopEnds L chunks chunk cursor (fuel + 1) stopped left where
  ge := by
    have := h.ge
    omega
  le := by
    have := h.le
    push_cast
    omega
  unchanged i hi := by
    have hge := h.ge
    rw [h.unchanged i (by omega), onChunks_apply, if_neg (by omega)]
  hasBit_eq k hge hlt := by
    rcases hge.eq_or_lt with hsame | hbehind
    · rw [h.unchanged _ (.inl (by omega)), onChunks_apply, if_pos (by omega), Layout.hasBit_and,
        hc k hsame.symm]
    · have hmem : k ∈ rest ↔ k ∈ cursor := (hrest k).trans (and_iff_left hbehind)
      rw [h.hasBit_eq k (by omega) hlt, onChunks_apply, if_neg (by omega), decide_eq_decide.2 hmem]
  none_left hlt n hn := by
    have hge := h.ge
    by_cases hbehind : chunk < n / L.bitsInChunk
    · exact h.none_left (by push_cast at hlt; omega) n ((hrest n).2 ⟨hn, hbehind⟩)
    · omega
  early_iff := by
    have hearly := h.early_iff
    have hshift : stopped < chunk + ((fuel + 1 : ℕ) : ℤ) ↔ stopped < chunk + 1 + (fuel : ℤ) := by
      push_cast
      omega
    rw [hshift, hearly]
    constructor
    · rintro ⟨hfuel, hall⟩
      refine ⟨by omega, fun n hn => ?_⟩
      push_cast
      by_cases hbehind : chunk < n / L.bitsInChunk
      · have := hall n ((hrest n).2 ⟨hn, hbehind⟩)
        omega
      · omega
    · rintro ⟨-, hall⟩
      push_cast at hall
      obtain ⟨n, hn, hchunk⟩ := hcursor
      have := hall n hn
      refine ⟨by omega, fun k hk => ?_⟩
      have := hall k ((hrest k).1 hk).1
      omega

theorem andLoop_ends {cursor : List ℤ} (chunks : ℤ → L.Chunk) (chunk : ℤ) (fuel : ℕ)
    (h : IsCursor L cursor) :
    AndLoopEnds L chunks chunk cursor fuel (andLoop L chunks chunk cursor fuel).1
      (andLoop L chunks chunk cursor fuel).2 := by
  induction fuel generalizing chunks chunk cursor with
  | zero =>
    rw [andLoop]
    exact ⟨le_rfl, by simp, fun _ _ => rfl, fun k hge hlt => absurd hge hlt.not_ge,
      fun hlt => by simp at hlt, by simp⟩
  | succ fuel ih =>
    have hskipped (n : ℤ) :
        n ∈ cursor.dropWhile (fun bi => decide (chunk > L.getChunkIndex bi)) ↔
          n ∈ cursor ∧ chunk ≤ n / L.bitsInChunk := h.mem_skipped
    have hsub := h.of_sublist
      (List.dropWhile_sublist (fun bi => decide (chunk > L.getChunkIndex bi)))
    rw [andLoop]
    dsimp only
    generalize cursor.dropWhile (fun bi => decide (chunk > L.getChunkIndex bi)) = skipped
      at hskipped hsub ⊢
    split_ifs with hnone
    · refine AndLoopEnds.stop chunks chunk fuel fun n hn => not_le.1 fun hge => ?_
      have := (hskipped n).2 ⟨hn, hge⟩
      rw [hnone] at this
      exact List.not_mem_nil this
    · have hge (n : ℤ) (hn : n ∈ skipped) := ((hskipped n).1 hn).2
      obtain ⟨first, hfirst⟩ := List.exists_mem_of_ne_nil _ hnone
      refine AndLoopEnds.next ⟨first, ((hskipped first).1 hfirst).1, hge first hfirst⟩
        (fun n => ?_) (fun k hk => ?_)
        (ih _ (chunk + 1) (hsub.of_sublist (List.dropWhile_sublist _)))
      · rw [hsub.mem_left hge, hskipped, and_assoc]
        exact and_congr_right fun _ => and_iff_right_of_imp le_of_lt
      · rw [hsub.hasBit_taken hge hk, decide_eq_decide, hskipped]
        exact and_iff_left hk.ge

/-- The bits that `operator&=` leaves: those of the last chunk too when the loop stops before. -/
theorem Exact.bit_andLoop (h : v.Exact) {stopped : ℤ} {left : ℤ → L.Chunk} {fuel : ℕ}
    (hfirst : v.firstChunkWithNonZero ≤ v.lastChunkWithNonZero)
    (hfuel : v.firstChunkWithNonZero + fuel = v.lastChunkWithNonZero + 1)
    (hends : AndLoopEnds L v.chunks v.firstChunkWithNonZero sparse fuel stopped left) (k : ℤ) :
    ({ v with chunks := onChunks stopped (v.lastChunkWithNonZero - 1) (fun _ _ => 0) left }
      : BitVector L).bit k =
      (v.bit k && (decide (k ∈ sparse) || decide (stopped ≤ v.lastChunkWithNonZero ∧
        k / L.bitsInChunk = v.lastChunkWithNonZero))) := by
  have hge := hends.ge
  have hle := hends.le
  rw [bit]
  dsimp only
  rw [onChunks_apply]
  by_cases hcleared : stopped ≤ k / L.bitsInChunk ∧ k / L.bitsInChunk ≤ v.lastChunkWithNonZero - 1
  · have hk : k ∉ sparse := fun hk => (hends.none_left (by omega) k hk).not_ge hcleared.1
    rw [if_pos hcleared, Layout.hasBit_zero, decide_eq_false hk, decide_eq_false (by omega),
      Bool.or_false, Bool.and_false]
  rw [if_neg hcleared]
  by_cases hwithin : v.firstChunkWithNonZero ≤ k / L.bitsInChunk ∧ k / L.bitsInChunk < stopped
  · have hpast : ¬(stopped ≤ v.lastChunkWithNonZero ∧
        k / (L.bitsInChunk : ℤ) = v.lastChunkWithNonZero) := by omega
    rw [hends.hasBit_eq k hwithin.1 hwithin.2, decide_eq_false hpast, Bool.or_false]
    rfl
  rw [hends.unchanged _ (by omega)]
  by_cases hlast : k / (L.bitsInChunk : ℤ) = v.lastChunkWithNonZero
  · have hleft : stopped ≤ v.lastChunkWithNonZero ∧
        k / (L.bitsInChunk : ℤ) = v.lastChunkWithNonZero := ⟨by omega, hlast⟩
    rw [decide_eq_true hleft, Bool.or_true, Bool.and_true]
    rfl
  · have hzero : v.bit k = false := bit_eq_false_of_chunk (h.chunks_within (by omega)) rfl
    rw [hzero, Bool.false_and]
    exact hzero

/-- The intersection is right when the cursor is not exhausted before the last chunk. -/
theorem Exact.andAssignSparse (h : v.Exact) (hs : IsSparse sparse) :
    (v.andAssignSparse sparse).Exact ∧
      ((v.andAssignSparse sparse).toSet = v.toSet ∩ {n | n ∈ sparse} ↔
        v.toSet = ∅ ∨ sparse = [] ∨ ∃ n ∈ sparse, v.lastChunkWithNonZero ≤ n / L.bitsInChunk) := by
  rw [BitVector.andAssignSparse]
  split_ifs with hempty hnone
  · have hset := h.isEmpty_iff.1 hempty
    refine ⟨h, iff_of_true ?_ (.inl hset)⟩
    rw [hset, Set.empty_inter]
  · refine ⟨h.empty, iff_of_true ?_ (.inr (.inl hnone))⟩
    rw [h.empty.isEmpty_iff.1 rfl, hnone]
    simp
  have hlast : 0 ≤ v.lastChunkWithNonZero := not_lt.1 fun hneg => hempty (decide_eq_true hneg)
  have hfirst := (h.chunk_bounds (h.last_ne_zero hlast)).2.1
  dsimp only
  have hfuel : v.firstChunkWithNonZero +
      ((v.lastChunkWithNonZero - v.firstChunkWithNonZero + 1).toNat : ℤ) =
        v.lastChunkWithNonZero + 1 := by omega
  generalize (v.lastChunkWithNonZero - v.firstChunkWithNonZero + 1).toNat = fuel at hfuel ⊢
  have hends := andLoop_ends v.chunks v.firstChunkWithNonZero fuel hs.isCursor
  generalize andLoop L v.chunks v.firstChunkWithNonZero sparse fuel = stopped at hends ⊢
  have hbit := h.bit_andLoop hfirst hfuel hends
  refine ⟨h.shrinkLowAndHigh hlast fun i hi => ?_, ?_⟩
  · obtain ⟨k, hk, hkbit⟩ := (chunk_ne_zero_iff_bit (v := { v with
      chunks := (onChunks stopped.1 (v.lastChunkWithNonZero - 1) (fun _ _ => 0) stopped.2) })).1 hi
    rw [hbit, Bool.and_eq_true] at hkbit
    exact chunk_ne_zero_iff_bit.2 ⟨k, hk, hkbit.1⟩
  have hearly := hends.early_iff
  rw [hfuel, Int.lt_add_one_iff] at hearly
  have hset (k : ℤ) : k ∈ (resetLowAndHighChunks
      { v with chunks := (onChunks stopped.1 (v.lastChunkWithNonZero - 1) (fun _ _ => 0) stopped.2) }
      v.firstChunkWithNonZero v.lastChunkWithNonZero).toSet ↔ k ∈ v.toSet ∧ (k ∈ sparse ∨
        stopped.1 ≤ v.lastChunkWithNonZero ∧ k / L.bitsInChunk = v.lastChunkWithNonZero) := by
    refine Iff.trans (b := _ = true) Iff.rfl ?_
    rw [bit_resetLowAndHighChunks, hbit, Bool.and_eq_true, Bool.or_eq_true, decide_eq_true_eq,
      decide_eq_true_eq]
    rfl
  constructor
  · intro heq
    refine .inr (.inr ?_)
    by_contra hnone
    push Not at hnone
    obtain ⟨k, hk, hkbit⟩ := h.exists_last hlast
    have hstop := hearly.2 ⟨by omega, fun n hn => by have := hnone n hn; omega⟩
    have hmem := (hset k).2 ⟨hkbit, .inr ⟨hstop, hk⟩⟩
    rw [heq] at hmem
    exact (hnone k hmem.2).ne hk
  · rintro (hset | hnil | ⟨n, hn, hge⟩)
    · exact absurd (h.isEmpty_iff.2 hset) hempty
    · exact absurd hnil hnone
    · refine Set.ext fun k => (hset k).trans (and_congr_right fun _ => or_iff_left fun hstop => ?_)
      have := (hearly.1 hstop.1).2 n hn
      omega

/-! ### All four -/

/-- A vector and a sparse vector have the results of the set operations, and these are exact. -/
structure MixedRight (v : BitVector L) (sparse : List ℤ) : Prop where
  assign : (v.assignSparse sparse).Exact ∧ (v.assignSparse sparse).toSet = {n | n ∈ sparse}
  orAssign : (v.orAssignSparse sparse).Exact ∧
    (v.orAssignSparse sparse).toSet = v.toSet ∪ {n | n ∈ sparse}
  andAssign : (v.andAssignSparse sparse).Exact ∧
    (v.andAssignSparse sparse).toSet = v.toSet ∩ {n | n ∈ sparse}
  subAssign : (v.subAssignSparse sparse).Exact ∧
    (v.subAssignSparse sparse).toSet = v.toSet \ {n | n ∈ sparse}

/-- The difference is right when no common member is above the highest bit at 32 bits. -/
theorem Exact.toSet_subAssignSparse_iff (h : v.Exact) (hs : IsSparse sparse) :
    (v.subAssignSparse sparse).toSet = v.toSet \ {n | n ∈ sparse} ↔
      ∀ n ∈ sparse, n ∈ v.toSet → n ≤ v.getHighestBitPosition % 2 ^ 32 := by
  rw [(h.subAssignSparse hs).2]
  constructor
  · intro heq n hn hmem
    by_contra hgt
    have hkept : n ∈ v.toSet \ {n | n ∈ sparse ∧ n ≤ v.getHighestBitPosition % 2 ^ 32} :=
      ⟨hmem, fun hin => hgt hin.2⟩
    rw [heq] at hkept
    exact hkept.2 hn
  · intro hle
    refine Set.ext fun n => and_congr_right fun hmem => not_congr ?_
    exact and_iff_left_of_imp fun hn => hle n hn hmem

theorem mixed_iff (h : v.Exact) (hs : IsSparse sparse) :
    v.MixedRight sparse ↔
      (v.toSet = ∅ ∨ sparse = [] ∨ ∃ n ∈ sparse, v.lastChunkWithNonZero ≤ n / L.bitsInChunk) ∧
        ∀ n ∈ sparse, n ∈ v.toSet → n ≤ v.getHighestBitPosition % 2 ^ 32 := by
  obtain ⟨handExact, hand⟩ := h.andAssignSparse hs
  rw [← hand, ← h.toSet_subAssignSparse_iff hs]
  constructor
  · exact fun hmixed => ⟨hmixed.andAssign.2, hmixed.subAssign.2⟩
  · exact fun hright => ⟨h.assignSparse hs, h.orAssignSparse hs, ⟨handExact, hright.1⟩,
      (h.subAssignSparse hs).1, hright.2⟩

/-- A vector with a bit in each of two chunks. -/
def twoChunks : BitVector ⟨true, false⟩ := (new.set 0).set 64

theorem exact_twoChunks : twoChunks.Exact :=
  (wellFormed_new.toExact.set (by decide) (by decide)).set (by decide) (by decide)

theorem isSparse_singleton (hn : 0 ≤ n) (hlt : n < 2 ^ 32) : IsSparse [n] :=
  ⟨List.pairwise_singleton _ _, fun k hk => by rw [List.mem_singleton.1 hk]; exact ⟨hn, hlt⟩⟩

theorem mixed_iff_twoChunks :
    twoChunks.MixedRight [64] ↔
      (twoChunks.toSet = ∅ ∨ [(64 : ℤ)] = [] ∨ ∃ n ∈ [(64 : ℤ)],
        twoChunks.lastChunkWithNonZero ≤ n / Layout.bitsInChunk ⟨true, false⟩) ∧
      ∀ n ∈ [(64 : ℤ)], n ∈ twoChunks.toSet → n ≤ twoChunks.getHighestBitPosition % 2 ^ 32 :=
  mixed_iff exact_twoChunks (isSparse_singleton (by decide) (by decide))

/-- The last chunk is not cleared: an element stays that the second vector does not have. -/
theorem andAssign_keeps_last : ¬twoChunks.MixedRight [0] := by
  intro h
  have hstays : (64 : ℤ) ∈ (twoChunks.andAssignSparse [0]).toSet :=
    show BitVector.bit _ 64 = true by decide
  rw [h.andAssign.2] at hstays
  exact absurd hstays.2 (by decide)

end BitVector

end OMR.Compiler
