import OMR.Om.ValueBoxing

/-!
# Values in generated code

The builder appends expressions over 64 bit words to the code it generates: a value is
made from an integer and read again by masks, as in the runtime, but without the sign.
-/

namespace OMR.Om

/-- An `IlValue`: a word that the generated code has at hand, or an operation on others. -/
inductive IlValue where
  | word (x : BitVec 64)
  | constInt64 (value : BitVec 64)
  | and (left right : IlValue)
  | or (left right : IlValue)

/-- What generated code computes for an expression. -/
def IlValue.eval : IlValue → BitVec 64
  | word x => x
  | constInt64 value => value
  | and left right => left.eval &&& right.eval
  | or left right => left.eval ||| right.eval

namespace ValueBuilder

open IlValue

def getUint48 (v : IlValue) : IlValue := and v (constInt64 Value.payloadMask)

def fromUint48 (i : IlValue) : IlValue :=
  or (and i (constInt64 Value.payloadMask)) (constInt64 Value.Tag.uint48)

def getInt48 (v : IlValue) : IlValue := and v (constInt64 Value.payloadMask)

def fromInt48 (i : IlValue) : IlValue :=
  or (and i (constInt64 Value.payloadMask)) (constInt64 Value.Tag.int48)

theorem eval_fromInt48 (x : BitVec 64) :
    (fromInt48 (.word x)).eval = (Value.ofInt48 x).raw := BitVec.or_comm _ _

theorem eval_fromUint48 (x : BitVec 64) :
    (fromUint48 (.word x)).eval = (Value.ofUint48 x).raw := BitVec.or_comm _ _

theorem eval_getUint48 {v : Value} (hkind : v.isUint48 = true) :
    some (getUint48 (.word v.raw)).eval = v.getUint48 :=
  (Value.asserted_of_true hkind).symm

/-- What is read differs where the sign would be extended. -/
theorem eval_getInt48 {v : Value} (hkind : v.isInt48 = true) :
    some (getInt48 (.word v.raw)).eval = v.getInt48 ↔ v.raw.getLsbD 47 = false := by
  obtain ⟨s, e, k, p, hraw⟩ := exists_boxed v.raw
  obtain ⟨he, hk⟩ := (Value.is_iff hraw).1.1 hkind
  have hv : v = ⟨boxed s (BitVec.allOnes 11) (Value.kindNumber .int48) p⟩ := by
    cases v
    subst he hk
    exact congrArg Value.mk hraw
  have hbit : v.raw.getLsbD 47 = p.msb := by
    rw [hraw, BitVec.msb_eq_getLsbD_last]
    unfold boxed
    rw [BitVec.getLsbD_append, if_pos (by decide)]
  have hread : (getInt48 (.word v.raw)).eval = boxed s 0 0 p := by
    change v.raw &&& Value.payloadMask = _
    rw [hraw, boxed_and_payloadMask]
  rw [hread, hbit, hv, Value.getInt48_tagged, Option.some_inj]
  by_cases hmsb : p.msb = true
  · rw [if_pos hmsb, hmsb]
    refine iff_of_false (fun h => ?_) (by decide)
    exact absurd ((boxed_inj _ _ _ _ _ _ _ _).1 h).2.1 (by decide)
  · rw [if_neg hmsb]
    exact iff_of_true rfl (Bool.eq_false_iff.2 hmsb)

/-- Generated code agrees with the runtime on a word and a value: what is built from the
word, and what is read from the value where it has the kind. -/
def Agrees (x : BitVec 64) (v : Value) : Prop :=
  (fromInt48 (.word x)).eval = (Value.ofInt48 x).raw ∧
  (fromUint48 (.word x)).eval = (Value.ofUint48 x).raw ∧
  (v.isInt48 = true → some (getInt48 (.word v.raw)).eval = v.getInt48) ∧
  (v.isUint48 = true → some (getUint48 (.word v.raw)).eval = v.getUint48)

/-- Generated code agrees with the runtime except on the integers with the sign of 48 bits. -/
theorem agrees_iff (x : BitVec 64) (v : Value) :
    Agrees x v ↔ ¬ (v.isInt48 = true ∧ v.raw.getLsbD 47 = true) := by
  constructor
  · rintro ⟨-, -, hint, -⟩ ⟨hkind, hsign⟩
    have hbit := (eval_getInt48 hkind).1 (hint hkind)
    rw [hsign] at hbit
    exact Bool.noConfusion hbit
  · intro hnot
    refine ⟨eval_fromInt48 x, eval_fromUint48 x, fun hkind => ?_, fun hkind => eval_getUint48 hkind⟩
    exact (eval_getInt48 hkind).2 (Bool.eq_false_iff.2 fun hsign => hnot ⟨hkind, hsign⟩)

/-- The runtime reads -1 from the value of -1, and generated code does not. -/
theorem getInt48_minus_one : ¬ Agrees 0 (Value.ofInt48 (-1)) := by
  rintro ⟨-, -, hint, -⟩
  exact absurd (hint (by decide)) (by decide)

end ValueBuilder

end OMR.Om
