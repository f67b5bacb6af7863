import OMR.Compiler.BitVectorRuns

/-!
# Bit containers

`TR_BitContainer`: a set that is given by a single index or by a `TR_BitVector`, which may be
missing. The iterator of a container is its `_curIndex`.
-/

namespace OMR.Compiler

inductive BitContainer (L : Layout) where
  | bitvector (bitVector : Option (BitVector L))
  | singleton (singleBit : ℤ)

namespace BitContainer

variable {L : Layout}

def get (n : ℤ) : BitContainer L → ℤ
  | bitvector (some v) => if v.get n then 1 else 0
  | bitvector none => 0
  | singleton singleBit => if singleBit = n then singleBit else 0

/-- `intersects` with a vector. -/
def intersectsVector (v2 : BitVector L) : BitContainer L → Bool
  | bitvector (some v) => v.intersects v2
  | bitvector none => false
  | singleton singleBit => v2.get singleBit

/-- `intersects` with a container. -/
def intersects (c : BitContainer L) : BitContainer L → Bool
  | bitvector (some v2) => c.intersectsVector v2
  | bitvector none => false
  | singleton singleBit2 =>
    match c with
    | bitvector (some _) => decide (c.get singleBit2 ≠ 0)
    | bitvector none => false
    | singleton singleBit => decide (singleBit2 = singleBit)

/-- `operator==` with a vector. -/
def equals (v2 : BitVector L) : BitContainer L → Bool
  | bitvector (some v) => v.equals v2
  | bitvector none => false
  | singleton singleBit => v2.get singleBit && !v2.hasMoreThanOneElement

def hasMoreThanOneElement : BitContainer L → Bool
  | bitvector (some v) => v.hasMoreThanOneElement
  | bitvector none => false
  | singleton _ => false

def isEmpty : BitContainer L → Bool
  | bitvector (some v) => v.isEmpty
  | bitvector none => true
  | singleton _ => false

/-- The iterator after `setBitContainer`; without a vector its index is not used. -/
def setBitContainer : BitContainer L → ℤ
  | bitvector (some v) => v.start 0
  | bitvector none => 0
  | singleton _ => -1

def hasMoreElements (curIndex : ℤ) : BitContainer L → Bool
  | bitvector (some v) => v.hasMoreElements curIndex
  | bitvector none => false
  | singleton _ => decide (curIndex = -1)

/-- What `getNextElement` returns, and the iterator after it. -/
def getNextElement (curIndex : ℤ) : BitContainer L → ℤ × ℤ
  | bitvector (some v) => (curIndex, v.getNextBit curIndex)
  | bitvector none => (-1, curIndex)
  | singleton singleBit => (singleBit, singleBit)

/-- What `getNextElement` returns until there are no more elements; `none` if `fuel` calls are not
enough. -/
def elements (c : BitContainer L) (curIndex : ℤ) : ℕ → Option (List ℤ)
  | 0 => none
  | fuel + 1 =>
    if c.hasMoreElements curIndex then
      (c.elements (c.getNextElement curIndex).2 fuel).map ((c.getNextElement curIndex).1 :: ·)
    else some []

/-- The set that a container stands for. -/
def toSet : BitContainer L → Set ℤ
  | bitvector (some v) => v.toSet
  | bitvector none => ∅
  | singleton singleBit => {singleBit}

/-- The index is not negative and has 32 bits; a vector is well-formed. -/
def Valid : BitContainer L → Prop
  | bitvector (some v) => v.WellFormed
  | bitvector none => True
  | singleton singleBit => 0 ≤ singleBit ∧ singleBit < 2 ^ 31

/-- What a container says agrees with its set. -/
structure Behaves (c : BitContainer L) : Prop where
  get_iff : ∀ n, 0 ≤ n → n < 2 ^ 31 → (c.get n ≠ 0 ↔ n ∈ c.toSet)
  intersectsVector_iff : ∀ v2 : BitVector L, v2.WellFormed →
    (c.intersectsVector v2 = true ↔ (c.toSet ∩ v2.toSet).Nonempty)
  intersects_iff : ∀ c2 : BitContainer L, c2.Valid →
    (c.intersects c2 = true ↔ (c.toSet ∩ c2.toSet).Nonempty)
  intersects_swap : ∀ c2 : BitContainer L, c2.Valid →
    (c2.intersects c = true ↔ (c2.toSet ∩ c.toSet).Nonempty)
  equals_iff : ∀ v2 : BitVector L, v2.WellFormed → (c.equals v2 = true ↔ c.toSet = v2.toSet)
  hasMoreThanOneElement_iff : c.hasMoreThanOneElement = true ↔ 1 < c.toSet.ncard
  isEmpty_iff : c.isEmpty = true ↔ c.toSet = ∅
  iterates : ∃ bound, ∀ fuel, bound < fuel →
    ∃ l, c.elements c.setBitContainer fuel = some l ∧ l.Pairwise (· < ·) ∧ ∀ n, n ∈ l ↔ n ∈ c.toSet

variable {c : BitContainer L} {v v2 : BitVector L} {singleBit n : ℤ}

theorem get_eq_of_lt (h : v.Exact) (hn : 0 ≤ n) (hlt : n < 2 ^ 31) : v.get n = v.bit n := by
  have hle := Int.ediv_le_self (L.bitsInChunk : ℤ) hn
  have hnonneg := BitVector.ediv_nonneg_iff (L := L).2 hn
  exact h.get_eq (toInt32_of_lt (by omega) (by omega))

theorem get_vector_iff (h : v.Exact) (hn : 0 ≤ n) (hlt : n < 2 ^ 31) :
    (bitvector (some v)).get n ≠ 0 ↔ n ∈ v.toSet := by
  rw [get, get_eq_of_lt h hn hlt]
  cases hbit : v.bit n with
  | false =>
    exact ⟨fun hne => absurd rfl hne, fun hmem => absurd (hbit.symm.trans hmem) Bool.false_ne_true⟩
  | true => exact ⟨fun _ => hbit, fun _ => one_ne_zero⟩

theorem intersectsVector_iff (h : c.Valid) (h2 : v2.WellFormed) :
    c.intersectsVector v2 = true ↔ (c.toSet ∩ v2.toSet).Nonempty := by
  cases c with
  | bitvector bitVector =>
    cases bitVector with
    | none =>
      rw [toSet, Set.empty_inter]
      exact ⟨fun hfalse => Bool.noConfusion hfalse, fun hne => absurd hne Set.not_nonempty_empty⟩
    | some v => exact BitVector.Exact.intersects_iff h.toExact h2.toExact
  | singleton singleBit =>
    rw [intersectsVector, get_eq_of_lt h2.toExact h.1 h.2, toSet, Set.singleton_inter_nonempty]
    rfl

/-- Both orders of two containers. -/
theorem intersects_iff {c2 : BitContainer L} (h : c.Valid) (h2 : c2.Valid) :
    c.intersects c2 = true ↔ (c.toSet ∩ c2.toSet).Nonempty := by
  cases c2 with
  | bitvector bitVector2 =>
    cases bitVector2 with
    | none =>
      rw [toSet, Set.inter_empty]
      exact ⟨fun hfalse => Bool.noConfusion hfalse, fun hne => absurd hne Set.not_nonempty_empty⟩
    | some v2 => exact intersectsVector_iff h h2
  | singleton singleBit2 =>
    have hmem : (c.toSet ∩ (singleton singleBit2 : BitContainer L).toSet).Nonempty ↔
        singleBit2 ∈ c.toSet := Set.inter_singleton_nonempty
    rw [hmem]
    cases c with
    | bitvector bitVector =>
      cases bitVector with
      | none => exact ⟨fun hfalse => Bool.noConfusion hfalse, fun hne => hne.elim⟩
      | some v =>
        rw [intersects, decide_eq_true_eq]
        exact get_vector_iff h.toExact h2.1 h2.2
    | singleton singleBit =>
      rw [intersects, decide_eq_true_eq]
      rfl

/-- The iterator of a container with a vector is that of the vector. -/
theorem elements_vector (curIndex : ℤ) (fuel : ℕ) :
    (bitvector (some v)).elements curIndex fuel = v.elements curIndex fuel := by
  induction fuel generalizing curIndex with
  | zero => rfl
  | succ fuel ih =>
    rw [elements, BitVector.elements, getNextElement, ih]
    rfl

theorem behaves_vector (h : v.WellFormed) : (bitvector (some v)).Behaves where
  get_iff _ hn hlt := get_vector_iff h.toExact hn hlt
  intersectsVector_iff _ h2 := intersectsVector_iff h h2
  intersects_iff _ h2 := intersects_iff h h2
  intersects_swap _ h2 := intersects_iff h2 h
  equals_iff _ h2 := h.equals_iff h2.toExact
  hasMoreThanOneElement_iff := h.hasMoreThanOneElement_iff
  isEmpty_iff := h.isEmpty_iff
  iterates := by
    obtain ⟨bound, hbound⟩ := h.iterates le_rfl (by decide)
    refine ⟨bound, fun fuel hfuel => ?_⟩
    obtain ⟨l, helements, hsorted, hmem⟩ := hbound fuel hfuel
    refine ⟨l, (elements_vector _ _).trans helements, hsorted, fun n => (hmem n).trans ?_⟩
    exact ⟨And.left, fun hn => ⟨hn, (h.bit_bounds hn).1⟩⟩

/-- A container with one index that is not zero, whose `get` returns the index. -/
theorem behaves_singleton (h : (singleton singleBit : BitContainer L).Valid)
    (hne : singleBit ≠ 0) : (singleton singleBit : BitContainer L).Behaves where
  get_iff n _ _ := by
    rw [get, toSet, Set.mem_singleton_iff]
    split_ifs with heq
    · exact ⟨fun _ => heq.symm, fun _ => hne⟩
    · exact ⟨fun hzero => absurd rfl hzero, fun hn => absurd hn.symm heq⟩
  intersectsVector_iff _ h2 := intersectsVector_iff h h2
  intersects_iff _ h2 := intersects_iff h h2
  intersects_swap _ h2 := intersects_iff h2 h
  equals_iff v2 h2 := by
    rw [equals, Bool.and_eq_true, Bool.not_eq_true', ← Bool.not_eq_true,
      h2.hasMoreThanOneElement_iff, get_eq_of_lt h2.toExact h.1 h.2, not_lt, toSet]
    constructor
    · rintro ⟨hbit, hcard⟩
      exact (Set.ncard_le_one_iff_eq h2.finite_toSet).1 hcard |>.elim
        (fun hempty => absurd hbit (Set.eq_empty_iff_forall_notMem.1 hempty _))
        fun hsingle => by
          obtain ⟨k, hk⟩ := hsingle
          have hmem : singleBit ∈ v2.toSet := hbit
          rw [hk, Set.mem_singleton_iff] at hmem
          rw [hk, hmem]
    · intro hset
      rw [← hset, Set.ncard_singleton]
      exact ⟨(Set.ext_iff.1 hset singleBit).1 rfl, le_rfl⟩
  hasMoreThanOneElement_iff := by
    rw [toSet, Set.ncard_singleton]
    exact ⟨fun hfalse => Bool.noConfusion hfalse, fun hlt => absurd hlt (lt_irrefl _)⟩
  isEmpty_iff := by
    rw [toSet]
    exact ⟨fun hfalse => Bool.noConfusion hfalse,
      fun hempty => absurd hempty (Set.singleton_ne_empty _)⟩
  iterates := by
    refine ⟨1, fun fuel hfuel => ⟨[singleBit], ?_, List.pairwise_singleton _ _, fun n => ?_⟩⟩
    · obtain ⟨fuel, rfl⟩ : ∃ k, fuel = k + 2 := ⟨fuel - 2, by omega⟩
      have hstop : (singleton singleBit : BitContainer L).hasMoreElements singleBit = false :=
        decide_eq_false (by have := h.1; omega)
      have hrest : (singleton singleBit : BitContainer L).elements singleBit (fuel + 1) = some [] := by
        rw [elements, hstop]
        exact if_neg Bool.false_ne_true
      have hmore : (singleton singleBit : BitContainer L).hasMoreElements
          (singleton singleBit : BitContainer L).setBitContainer = true := rfl
      rw [elements, if_pos hmore, getNextElement, hrest]
      rfl
    · rw [List.mem_singleton]
      rfl

/-- A container behaves like its set exactly if it is not the one with index 0, whose `get` returns
0, and not the empty one without a vector, which is never equal to an empty vector. -/
theorem behaves_iff (h : c.Valid) :
    c.Behaves ↔ c ≠ singleton 0 ∧ c ≠ bitvector none := by
  constructor
  · intro hbehaves
    refine ⟨?_, ?_⟩
    · rintro rfl
      exact (hbehaves.get_iff 0 le_rfl (by decide)).2 rfl rfl
    · rintro rfl
      have hequals := (hbehaves.equals_iff BitVector.new BitVector.wellFormed_new).2
        (BitVector.wellFormed_new.isEmpty_iff.1 rfl).symm
      exact Bool.noConfusion hequals
  · rintro ⟨hzero, hnone⟩
    cases c with
    | bitvector bitVector =>
      cases bitVector with
      | none => exact absurd rfl hnone
      | some v => exact behaves_vector h
    | singleton singleBit =>
      exact behaves_singleton h fun heq => hzero (congrArg singleton heq)

theorem behaves_iff_three : (singleton 3 : BitContainer ⟨true, false⟩).Behaves ↔
    (singleton 3 : BitContainer ⟨true, false⟩) ≠ singleton 0 ∧
      (singleton 3 : BitContainer ⟨true, false⟩) ≠ bitvector none :=
  behaves_iff ⟨by decide, by decide⟩

/-- The container with index 0 does not say that it has it. -/
theorem get_singleton_zero : ¬(singleton 0 : BitContainer ⟨true, false⟩).Behaves :=
  fun h => (h.get_iff 0 le_rfl (by decide)).2 rfl rfl

end BitContainer

end OMR.Compiler
