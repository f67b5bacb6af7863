import OMR.Om.Value

/-!
# What is read from a boxed value

A value made from a double, an integer or an address has the kind of what it is made
from and no other, gives it back, and is equal to another value exactly when what the
two are made from is.
-/

namespace OMR.Om

namespace Value

/-- The predicate of a kind. -/
def is (v : Value) : Kind → Bool
  | .double => v.isDouble
  | .int48 => v.isInt48
  | .uint48 => v.isUint48
  | .ptr => v.isPtr
  | .ref => v.isRef

variable {v : Value} {s : BitVec 1} {e : BitVec 11} {k n : BitVec 4} {p : BitVec 48}

theorem isDouble_iff (hraw : v.raw = boxed s e k p) :
    v.isDouble = true ↔ ¬ (e = BitVec.allOnes 11 ∧ ¬ (k = 0 ∧ p = 0) ∧ k &&& 8 = 0) := by
  unfold isDouble isBoxedValue
  rw [hraw, Bool.not_eq_true', ← Bool.not_eq_true, isSNaN_boxed]

/-- The kinds are told apart by their bits, and a kind bit makes a NaN signaling. -/
theorem is_iff (hraw : v.raw = boxed s e k p) :
    (v.isInt48 = true ↔ e = BitVec.allOnes 11 ∧ k = 1) ∧
    (v.isUint48 = true ↔ e = BitVec.allOnes 11 ∧ k = 2) ∧
    (v.isPtr = true ↔ e = BitVec.allOnes 11 ∧ k = 3) ∧
    (v.isRef = true ↔ e = BitVec.allOnes 11 ∧ k = 4) := by
  obtain ⟨hint, huint, hptr, href⟩ := tags_eq
  unfold isInt48 isUint48 isPtr isRef
  rw [hraw, hint, huint, hptr, href]
  simp only [beq_iff_eq, tag_boxed_iff, and_self]

theorem isDouble_of_not_tagged (hraw : v.raw = boxed s e k p) (hdouble : v.isDouble = true)
    (hn : n ≠ 0) (hquiet : n &&& 8 = 0) : ¬ (e = BitVec.allOnes 11 ∧ k = n) := by
  rintro ⟨he, rfl⟩
  exact (isDouble_iff hraw).1 hdouble ⟨he, fun h => hn h.1, hquiet⟩

/-- `kind` agrees with the predicates, of which no two hold of one value. -/
theorem is_iff_kind (κ : Kind) : v.is κ = true ↔ v.kind = some κ := by
  obtain ⟨s, e, k, p, hraw⟩ := exists_boxed v.raw
  obtain ⟨hint, huint, hptr, href⟩ := is_iff hraw
  have htag : ∀ t, v.tag = t ↔ (v.raw &&& Tag.mask == t) = true := fun t => beq_iff_eq.symm
  have hkind : v.kind = if v.isDouble then some .double
      else if v.isInt48 then some .int48
      else if v.isUint48 then some .uint48
      else if v.isPtr then some .ptr
      else if v.isRef then some .ref
      else none := by
    unfold kind
    simp only [htag]
    rfl
  rw [hkind]
  by_cases hdouble : v.isDouble = true
  · have hnot : ∀ n : BitVec 4, n ≠ 0 → n &&& 8 = 0 → ¬ (e = BitVec.allOnes 11 ∧ k = n) :=
      fun n => isDouble_of_not_tagged hraw hdouble
    rw [if_pos hdouble]
    cases κ with
    | double => simp [is, hdouble]
    | int48 => exact iff_of_false (hint.not.2 (hnot 1 (by decide) (by decide))) (by simp)
    | uint48 => exact iff_of_false (huint.not.2 (hnot 2 (by decide) (by decide))) (by simp)
    | ptr => exact iff_of_false (hptr.not.2 (hnot 3 (by decide) (by decide))) (by simp)
    | ref => exact iff_of_false (href.not.2 (hnot 4 (by decide) (by decide))) (by simp)
  · rw [if_neg hdouble]
    simp only [hint, huint, hptr, href]
    cases κ with
    | double =>
      simp only [is, hdouble]
      split_ifs <;> simp
    | int48 =>
      simp only [is, hint]
      split_ifs <;> simp_all
    | uint48 =>
      simp only [is, huint]
      split_ifs <;> simp_all
    | ptr =>
      simp only [is, hptr]
      split_ifs <;> simp_all
    | ref =>
      simp only [is, href]
      split_ifs <;> simp_all

end Value

/-! ### What a value is made from -/

/-- A double by its bits, an integer of one of the two kinds, or an address. -/
inductive Datum where
  | double (d : BitVec 64)
  | int48 (i : BitVec 64)
  | uint48 (u : BitVec 64)
  | ptr (a : BitVec 64)
  | ref (a : BitVec 64)
  deriving DecidableEq

namespace Datum

def InRange : Datum → Prop
  | double _ => True
  | int48 i => -2 ^ 47 ≤ i.toInt ∧ i.toInt < 2 ^ 47
  | uint48 u => u.toNat < 2 ^ 48
  | ptr a => a.toNat < 2 ^ 48
  | ref a => a.toNat < 2 ^ 48

/-- The constructor of `Value` for the datum. -/
def box : Datum → Option Value
  | double d => some (Value.ofDouble d)
  | int48 i => some (Value.ofInt48 i)
  | uint48 u => some (Value.ofUint48 u)
  | ptr a => Value.ofPtr a
  | ref a => Value.ofRef a

def kind : Datum → Kind
  | double _ => .double
  | int48 _ => .int48
  | uint48 _ => .uint48
  | ptr _ => .ptr
  | ref _ => .ref

/-- The datum with a NaN replaced by the canonical one. -/
def canonical : Datum → Datum
  | double d => double (if Double.isNaN d then Value.canonicalNaN else d)
  | x => x

end Datum

/-- The getter of a kind. -/
def Value.unbox (v : Value) : Kind → Option Datum
  | .double => v.getDouble.map Datum.double
  | .int48 => v.getInt48.map Datum.int48
  | .uint48 => v.getUint48.map Datum.uint48
  | .ptr => v.getPtr.map Datum.ptr
  | .ref => v.getRef.map Datum.ref

section Boxing

variable {s : BitVec 1} {e : BitVec 11} {k n : BitVec 4} {p : BitVec 48}

/-- A word below `2 ^ 48` has its low 48 bits only. -/
theorem boxed_of_lt {u : BitVec 64} (hu : u.toNat < 2 ^ 48) : ∃ p, u = boxed 0 0 0 p := by
  refine ⟨u.setWidth 48, ?_⟩
  have hfields : boxed 0 0 0 (u.setWidth 48) = (0#16) ++ u.setWidth 48 := rfl
  rw [hfields, ← BitVec.toNat_inj, BitVec.toNat_append, BitVec.toNat_setWidth,
    Nat.mod_eq_of_lt hu, BitVec.toNat_zero, Nat.zero_shiftLeft, Nat.zero_or]

/-- A word in the range of 48 bit integers repeats their sign in its upper bits. -/
theorem boxed_of_signed {i : BitVec 64} (hlow : -2 ^ 47 ≤ i.toInt) (hhigh : i.toInt < 2 ^ 47) :
    ∃ p : BitVec 48, i = if p.msb then boxed (BitVec.allOnes 1) (BitVec.allOnes 11)
      (BitVec.allOnes 4) p else boxed 0 0 0 p := by
  refine ⟨i.setWidth 48, ?_⟩
  have hext : (i.setWidth 48).signExtend 64 = i := by
    apply BitVec.eq_of_toInt_eq
    rw [BitVec.toInt_signExtend_of_le (by decide), BitVec.toInt_setWidth]
    calc Int.bmod i.toNat (2 ^ 48) = Int.bmod (Int.bmod i.toNat (2 ^ 64)) (2 ^ 48) :=
          (Int.bmod_bmod_of_dvd (by norm_num)).symm
      _ = Int.bmod i.toInt (2 ^ 48) := by rw [← BitVec.toInt_eq_toNat_bmod]
      _ = i.toInt := Int.bmod_eq_of_le (by omega) (by omega)
  have happend := BitVec.signExtend_eq_append_of_le (x := i.setWidth 48) (v := 64) (by decide)
  rw [hext] at happend
  by_cases hmsb : (i.setWidth 48).msb = true
  · rw [if_pos hmsb]
    rw [if_pos hmsb] at happend
    exact happend
  · rw [if_neg hmsb]
    rw [if_neg hmsb] at happend
    exact happend

end Boxing

namespace Value

variable {s : BitVec 1} {e : BitVec 11} {k n : BitVec 4} {p : BitVec 48}

/-- The number of a boxed kind. -/
def kindNumber : Kind → BitVec 4
  | .double => 0
  | .int48 => 1
  | .uint48 => 2
  | .ptr => 3
  | .ref => 4

/-- The kind of a word with the tag of a boxed kind. -/
theorem kind_of_tagged {κ : Kind} (hκ : κ ≠ .double) :
    (⟨boxed s (BitVec.allOnes 11) (kindNumber κ) p⟩ : Value).kind = some κ := by
  rw [← is_iff_kind]
  obtain ⟨hint, huint, hptr, href⟩ := is_iff
    (v := ⟨boxed s (BitVec.allOnes 11) (kindNumber κ) p⟩) rfl
  cases κ with
  | double => exact absurd rfl hκ
  | int48 => exact hint.2 ⟨rfl, rfl⟩
  | uint48 => exact huint.2 ⟨rfl, rfl⟩
  | ptr => exact hptr.2 ⟨rfl, rfl⟩
  | ref => exact href.2 ⟨rfl, rfl⟩

theorem ofInt48_boxed :
    ofInt48 (boxed s e k p) = ⟨boxed s (BitVec.allOnes 11) (kindNumber .int48) p⟩ := by
  unfold ofInt48
  rw [tags_eq.1, tag_or_payload]
  rfl

theorem ofUint48_boxed :
    ofUint48 (boxed s e k p) = ⟨boxed s (BitVec.allOnes 11) (kindNumber .uint48) p⟩ := by
  unfold ofUint48
  rw [tags_eq.2.1, tag_or_payload]
  rfl

/-- What an address must not have for the assertion to pass. -/
theorem boxed_and_not_payloadMask : boxed 0 0 0 p &&& ~~~payloadMask = 0 := by
  have hmask : ~~~payloadMask = Tag.mask := by decide
  rw [hmask, boxed_and_tagMask]
  rfl

theorem ofPtr_boxed :
    ofPtr (boxed 0 0 0 p) = some ⟨boxed 0 (BitVec.allOnes 11) (kindNumber .ptr) p⟩ := by
  unfold ofPtr
  rw [if_pos boxed_and_not_payloadMask, tags_eq.2.2.1, tag_or_payload]
  rfl

theorem ofRef_boxed :
    ofRef (boxed 0 0 0 p) = some ⟨boxed 0 (BitVec.allOnes 11) (kindNumber .ref) p⟩ := by
  unfold ofRef
  rw [if_pos boxed_and_not_payloadMask, tags_eq.2.2.2, tag_or_payload]
  rfl

/-- A double, canonical where it is a NaN, does not look like a boxed value. -/
theorem kind_ofDouble (d : BitVec 64) : (ofDouble d).kind = some .double := by
  rw [← is_iff_kind]
  change (!Double.isSNaN (canonicalizeNaN d)) = true
  rw [Bool.not_eq_true']
  unfold canonicalizeNaN
  by_cases hnan : Double.isNaN d = true
  · rw [if_pos hnan]
    decide
  · rw [if_neg hnan]
    unfold Double.isSNaN
    rw [Bool.eq_false_iff.2 hnan, Bool.false_and]

theorem asserted_of_true {kind : Bool} {result : BitVec 64} (h : kind = true) :
    asserted kind result = some result := if_pos h

theorem and_sign_ne_zero_iff (p : BitVec 48) : p &&& (1#48 <<< 47) ≠ 0 ↔ p.msb = true := by
  rw [Lib.word_ne_zero_iff, BitVec.msb_eq_getLsbD_last]
  constructor
  · rintro ⟨i, hi, hbit⟩
    rw [BitVec.getLsbD_and, Lib.getLsbD_one_shiftLeft hi, Bool.and_eq_true, decide_eq_true_eq] at hbit
    rw [← hbit.1, hbit.2]
  · intro hmsb
    refine ⟨47, by decide, ?_⟩
    rw [BitVec.getLsbD_and, Lib.getLsbD_one_shiftLeft (by decide), hmsb]
    rfl

/-- Whether the payload of a word has the sign of a 48 bit integer. -/
theorem payload_and_sign_ne_zero_iff :
    boxed s 0 0 p &&& (1#64 <<< 47) ≠ 0 ↔ p.msb = true := by
  have hbit : (1#64 <<< 47) = boxed 0 0 0 (1#48 <<< 47) := by decide
  have hs : s &&& 0 = 0 := BitVec.and_zero
  rw [hbit, boxed_and_boxed, hs, zero_eq_boxed, ne_eq, boxed_inj, ← and_sign_ne_zero_iff]
  simp only [BitVec.and_self, true_and, ne_eq]

/-- Reading an integer extends the sign that the word has at bit 47. -/
theorem getInt48_tagged :
    (⟨boxed s (BitVec.allOnes 11) (kindNumber .int48) p⟩ : Value).getInt48 =
      some (if p.msb then boxed (BitVec.allOnes 1) (BitVec.allOnes 11) (BitVec.allOnes 4) p
        else boxed s 0 0 p) := by
  have hsign : (0xFFFF000000000000 : BitVec 64) =
      boxed (BitVec.allOnes 1) (BitVec.allOnes 11) (BitVec.allOnes 4) 0 := by decide
  have hkind : (⟨boxed s (BitVec.allOnes 11) (kindNumber .int48) p⟩ : Value).isInt48 = true :=
    (is_iff_kind .int48).2 (kind_of_tagged (by decide))
  unfold getInt48
  rw [asserted_of_true hkind, boxed_and_payloadMask]
  by_cases hmsb : p.msb = true
  · have hor : boxed s 0 0 p ||| 0xFFFF000000000000 =
        boxed (BitVec.allOnes 1) (BitVec.allOnes 11) (BitVec.allOnes 4) p := by
      rw [hsign, boxed_or_boxed, BitVec.or_allOnes]
      congr 1
      exact BitVec.or_zero
    rw [if_pos hmsb]
    change some (if _ then _ else _) = _
    rw [if_pos (payload_and_sign_ne_zero_iff.2 hmsb), hor]
  · rw [if_neg hmsb]
    change some (if _ then _ else _) = _
    rw [if_neg (fun h => hmsb (payload_and_sign_ne_zero_iff.1 h))]

/-- What is read from the word that a datum is put in is the datum. -/
theorem exists_box {x : Datum} (hx : x.InRange) :
    ∃ v, x.box = some v ∧ v.kind = some x.kind ∧ v.unbox x.kind = some x.canonical := by
  cases x with
  | double d =>
    have hdouble : (ofDouble d).isDouble = true := (is_iff_kind .double).2 (kind_ofDouble d)
    refine ⟨ofDouble d, rfl, kind_ofDouble d, ?_⟩
    change (getDouble (ofDouble d)).map _ = _
    unfold getDouble
    rw [asserted_of_true hdouble]
    rfl
  | int48 i =>
    obtain ⟨p, hp⟩ := boxed_of_signed hx.1 hx.2
    have hbox : ∃ s, ofInt48 i = ⟨boxed s (BitVec.allOnes 11) (kindNumber .int48) p⟩ ∧
        (p.msb ≠ true → i = boxed s 0 0 p) := by
      by_cases hmsb : p.msb = true
      · rw [if_pos hmsb] at hp
        exact ⟨BitVec.allOnes 1, by rw [hp, ofInt48_boxed], fun h => absurd hmsb h⟩
      · rw [if_neg hmsb] at hp
        exact ⟨0, by rw [hp, ofInt48_boxed], fun _ => hp⟩
    obtain ⟨s, hof, hs⟩ := hbox
    refine ⟨ofInt48 i, rfl, by rw [hof]; exact kind_of_tagged (by decide), ?_⟩
    change (getInt48 (ofInt48 i)).map _ = _
    rw [hof, getInt48_tagged]
    by_cases hmsb : p.msb = true
    · rw [if_pos hmsb] at hp ⊢
      rw [← hp]
      rfl
    · rw [if_neg hmsb, ← hs hmsb]
      rfl
  | uint48 u =>
    obtain ⟨p, rfl⟩ := boxed_of_lt hx
    refine ⟨ofUint48 (boxed 0 0 0 p), rfl, ?_, ?_⟩
    · rw [ofUint48_boxed]
      exact kind_of_tagged (by decide)
    · have hkind : (⟨boxed 0 (BitVec.allOnes 11) (kindNumber .uint48) p⟩ : Value).isUint48 = true :=
        (is_iff_kind .uint48).2 (kind_of_tagged (by decide))
      change (getUint48 (ofUint48 (boxed 0 0 0 p))).map _ = _
      unfold getUint48
      rw [ofUint48_boxed, asserted_of_true hkind, boxed_and_payloadMask]
      rfl
  | ptr a =>
    obtain ⟨p, rfl⟩ := boxed_of_lt hx
    have hof : (⟨boxed 0 (BitVec.allOnes 11) (kindNumber .ptr) p⟩ : Value).kind = some .ptr :=
      kind_of_tagged (by decide)
    have hkind : (⟨boxed 0 (BitVec.allOnes 11) (kindNumber .ptr) p⟩ : Value).isPtr = true :=
      (is_iff_kind .ptr).2 hof
    refine ⟨_, ofPtr_boxed, hof, ?_⟩
    change (getPtr _).map _ = _
    unfold getPtr
    rw [asserted_of_true hkind, boxed_and_payloadMask]
    rfl
  | ref a =>
    obtain ⟨p, rfl⟩ := boxed_of_lt hx
    have hof : (⟨boxed 0 (BitVec.allOnes 11) (kindNumber .ref) p⟩ : Value).kind = some .ref :=
      kind_of_tagged (by decide)
    have hkind : (⟨boxed 0 (BitVec.allOnes 11) (kindNumber .ref) p⟩ : Value).isRef = true :=
      (is_iff_kind .ref).2 hof
    refine ⟨_, ofRef_boxed, hof, ?_⟩
    change (getRef _).map _ = _
    unfold getRef
    rw [asserted_of_true hkind, boxed_and_payloadMask]
    rfl

/-- Data with one canonical form are put in one word. -/
theorem box_eq_of_canonical_eq {x y : Datum} (h : x.canonical = y.canonical) : x.box = y.box := by
  cases x <;> cases y <;> simp_all [Datum.canonical, Datum.box, ofDouble, canonicalizeNaN]

/-- Values are a faithful and disjoint encoding of the data they are made from. -/
theorem boxing_faithful (x y : Datum) (hx : x.InRange) (hy : y.InRange) :
    ∃ v w, x.box = some v ∧ y.box = some w ∧
      v.unbox x.kind = some x.canonical ∧
      (∀ κ, v.is κ = true ↔ κ = x.kind) ∧ v.kind = some x.kind ∧
      (x.kind ≠ y.kind → v.eq w = false) ∧
      (x.kind = y.kind → (v.eq w = true ↔ x.canonical = y.canonical)) := by
  obtain ⟨v, hv, hkind, hunbox⟩ := exists_box hx
  obtain ⟨w, hw, hkind', hunbox'⟩ := exists_box hy
  have heq : v.eq w = true ↔ v = w := by
    unfold eq
    rw [beq_iff_eq, Value.mk.injEq]
  refine ⟨v, w, hv, hw, hunbox, fun κ => ?_, hkind, fun hne => ?_, fun hsame => ?_⟩
  · rw [is_iff_kind, hkind, Option.some_inj, eq_comm]
  · refine Bool.eq_false_iff.2 fun h => hne ?_
    rw [heq.1 h, hkind'] at hkind
    exact (Option.some_inj.1 hkind).symm
  · rw [heq]
    constructor
    · rintro rfl
      rw [← hsame, hunbox] at hunbox'
      exact Option.some_inj.1 hunbox'
    · intro hcanonical
      rw [box_eq_of_canonical_eq hcanonical, hw] at hv
      exact (Option.some_inj.1 hv).symm

/-- An integer and a NaN. -/
theorem boxing_faithful_minus_one :
    ∃ v w, (Datum.int48 (-1)).box = some v ∧ (Datum.double 0xFFF8000000000001).box = some w ∧
      v.unbox .int48 = some (.int48 (-1)) ∧ (∀ κ, v.is κ = true ↔ κ = .int48) ∧
      v.kind = some .int48 ∧ v.eq w = false := by
  obtain ⟨v, w, hv, hw, hunbox, his, hkind, hne, -⟩ :=
    boxing_faithful (.int48 (-1)) (.double 0xFFF8000000000001) ⟨by decide, by decide⟩ trivial
  exact ⟨v, w, hv, hw, hunbox, his, hkind, hne (by decide)⟩

end Value

end OMR.Om
