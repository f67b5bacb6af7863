import OMR.Lib.WordBits

/-!
# Boxed values

A value is one word: a double as it stands, or an integer or an address in the low
48 bits of a signaling NaN. The four bits above the low 48 are the quiet bit, which a
boxed value leaves unset, and the kind, which is not zero there.
-/

namespace OMR.Om

section BitUtilities

variable {w : ℕ}

def areAllBitsSet (value mask : BitVec w) : Bool := value &&& mask == mask

def areAnyBitsSet (value mask : BitVec w) : Bool := value &&& mask != 0

def areNoBitsSet (value mask : BitVec w) : Bool := value &&& mask == 0

end BitUtilities

namespace Double

def exponentMask : BitVec 64 := 0x7FF0000000000000
def mantissaMask : BitVec 64 := 0x000FFFFFFFFFFFFF
def specialTag : BitVec 64 := exponentMask
def nanQuietTag : BitVec 64 := 0x0008000000000000
def nanExtraBitsMask : BitVec 64 := 0x0007FFFFFFFFFFFF

def isNaN (value : BitVec 64) : Bool :=
  areAllBitsSet value specialTag && areAnyBitsSet value mantissaMask

def isSNaN (value : BitVec 64) : Bool := isNaN value && areNoBitsSet value nanQuietTag

end Double

inductive Kind where
  | double | int48 | uint48 | ptr | ref
  deriving DecidableEq

structure Value where
  raw : BitVec 64
  deriving DecidableEq

namespace Value

def nanTag : BitVec 64 := Double.specialTag
def nanMask : BitVec 64 := Double.specialTag ||| Double.nanQuietTag

namespace Tag

def shift : ℕ := 48
def mask : BitVec 64 := nanMask ||| (0x7#64 <<< shift)
def int48 : BitVec 64 := nanTag ||| (0x1#64 <<< shift)
def uint48 : BitVec 64 := nanTag ||| (0x2#64 <<< shift)
def ptr : BitVec 64 := nanTag ||| (0x3#64 <<< shift)
def ref : BitVec 64 := nanTag ||| (0x4#64 <<< shift)

end Tag

/-- What is not in the tag mask, which is the sign bit and the low 48 bits. -/
def payloadMask : BitVec 64 := ~~~Tag.mask

def canonicalNaN : BitVec 64 :=
  Double.specialTag ||| Double.nanQuietTag ||| Double.nanExtraBitsMask

def canonicalizeNaN (value : BitVec 64) : BitVec 64 :=
  if Double.isNaN value then canonicalNaN else value

/-- `Value(AS_DOUBLE, value)`: doubles are given by their bits. -/
def ofDouble (value : BitVec 64) : Value := ⟨canonicalizeNaN value⟩

def ofInt48 (value : BitVec 64) : Value := ⟨Tag.int48 ||| (value &&& payloadMask)⟩

def ofUint48 (value : BitVec 64) : Value := ⟨Tag.uint48 ||| (value &&& payloadMask)⟩

/-- `Value(AS_PTR, value)`, which asserts that nothing of the address is masked away. -/
def ofPtr (value : BitVec 64) : Option Value :=
  if value &&& ~~~payloadMask = 0 then some ⟨Tag.ptr ||| (value &&& payloadMask)⟩ else none

def ofRef (value : BitVec 64) : Option Value :=
  if value &&& ~~~payloadMask = 0 then some ⟨Tag.ref ||| (value &&& payloadMask)⟩ else none

variable (v : Value)

def isBoxedValue : Bool := Double.isSNaN v.raw

def isDouble : Bool := !v.isBoxedValue

def isInt48 : Bool := v.raw &&& Tag.mask == Tag.int48

def isUint48 : Bool := v.raw &&& Tag.mask == Tag.uint48

def isPtr : Bool := v.raw &&& Tag.mask == Tag.ptr

def isRef : Bool := v.raw &&& Tag.mask == Tag.ref

/-- The value of a getter that asserts the kind of the value it reads. -/
def asserted (kind : Bool) (result : BitVec 64) : Option (BitVec 64) :=
  if kind then some result else none

def getDouble : Option (BitVec 64) := asserted v.isDouble v.raw

def getPtr : Option (BitVec 64) := asserted v.isPtr (v.raw &&& payloadMask)

def getRef : Option (BitVec 64) := asserted v.isRef (v.raw &&& payloadMask)

def getUint48 : Option (BitVec 64) := asserted v.isUint48 (v.raw &&& payloadMask)

def getInt48 : Option (BitVec 64) :=
  asserted v.isInt48
    (let result := v.raw &&& payloadMask
     if result &&& (1#64 <<< 47) ≠ 0 then result ||| 0xFFFF000000000000 else result)

def tag : BitVec 64 := v.raw &&& Tag.mask

/-- `none` where the switch falls to `assert(0)`. -/
def kind : Option Kind :=
  if v.isDouble then some .double
  else if v.tag = Tag.int48 then some .int48
  else if v.tag = Tag.uint48 then some .uint48
  else if v.tag = Tag.ptr then some .ptr
  else if v.tag = Tag.ref then some .ref
  else none

/-- `operator==`. -/
def eq (rhs : Value) : Bool := v.raw == rhs.raw

end Value

/-! ### The fields of a word -/

/-- A word from its sign, exponent, quiet bit with kind, and the low 48 bits. -/
def boxed (s : BitVec 1) (e : BitVec 11) (k : BitVec 4) (p : BitVec 48) : BitVec 64 :=
  s ++ e ++ k ++ p

theorem exists_boxed (x : BitVec 64) : ∃ s e k p, x = boxed s e k p := by
  obtain ⟨sek, p, hx⟩ := Lib.exists_eq_append 16 48 x
  obtain ⟨se, k, hsek⟩ := Lib.exists_eq_append 12 4 sek
  obtain ⟨s, e, hse⟩ := Lib.exists_eq_append 1 11 se
  exact ⟨s, e, k, p, by rw [hx, hsek, hse]; rfl⟩

variable (s s' : BitVec 1) (e e' : BitVec 11) (k k' : BitVec 4) (p p' : BitVec 48)

theorem boxed_inj : boxed s e k p = boxed s' e' k' p' ↔ s = s' ∧ e = e' ∧ k = k' ∧ p = p' := by
  unfold boxed
  rw [Lib.append_inj, Lib.append_inj, Lib.append_inj, and_assoc, and_assoc]

theorem boxed_and_boxed :
    boxed s e k p &&& boxed s' e' k' p' = boxed (s &&& s') (e &&& e') (k &&& k') (p &&& p') := by
  unfold boxed
  rw [BitVec.and_append, BitVec.and_append, BitVec.and_append]

theorem boxed_or_boxed :
    boxed s e k p ||| boxed s' e' k' p' = boxed (s ||| s') (e ||| e') (k ||| k') (p ||| p') := by
  unfold boxed
  rw [BitVec.or_append, BitVec.or_append, BitVec.or_append]

/-! ### The masks and tags by their fields -/

section Fields

open Value

theorem specialTag_eq : Double.specialTag = boxed 0 (BitVec.allOnes 11) 0 0 := by decide

theorem mantissaMask_eq : Double.mantissaMask = boxed 0 0 (BitVec.allOnes 4) (BitVec.allOnes 48) := by decide

theorem nanQuietTag_eq : Double.nanQuietTag = boxed 0 0 8 0 := by decide

theorem tagMask_eq : Tag.mask = boxed 0 (BitVec.allOnes 11) (BitVec.allOnes 4) 0 := by decide

theorem payloadMask_eq : payloadMask = boxed 1 0 0 (BitVec.allOnes 48) := by decide

theorem zero_eq_boxed : (0 : BitVec 64) = boxed 0 0 0 0 := by decide

/-- The four tags are those of the kinds 1 to 4. -/
theorem tags_eq :
    Tag.int48 = boxed 0 (BitVec.allOnes 11) 1 0 ∧ Tag.uint48 = boxed 0 (BitVec.allOnes 11) 2 0 ∧
    Tag.ptr = boxed 0 (BitVec.allOnes 11) 3 0 ∧ Tag.ref = boxed 0 (BitVec.allOnes 11) 4 0 := by
  decide

variable (s : BitVec 1) (e : BitVec 11) (k n : BitVec 4) (p : BitVec 48)

theorem boxed_and_tagMask : boxed s e k p &&& Tag.mask = boxed 0 e k 0 := by
  rw [tagMask_eq, boxed_and_boxed, BitVec.and_allOnes]
  congr 1
  · exact BitVec.and_zero
  · exact BitVec.and_allOnes
  · exact BitVec.and_zero

theorem boxed_and_payloadMask : boxed s e k p &&& payloadMask = boxed s 0 0 p := by
  rw [payloadMask_eq, boxed_and_boxed, BitVec.and_allOnes]
  congr 1
  · exact BitVec.and_allOnes
  · exact BitVec.and_zero
  · exact BitVec.and_zero

/-- A tag put in front of the payload of a word. -/
theorem tag_or_payload :
    boxed 0 (BitVec.allOnes 11) n 0 ||| (boxed s e k p &&& payloadMask) =
      boxed s (BitVec.allOnes 11) n p := by
  rw [boxed_and_payloadMask, boxed_or_boxed]
  congr 1
  · exact BitVec.zero_or
  · exact BitVec.or_zero
  · exact BitVec.zero_or

theorem tag_boxed_iff :
    boxed s e k p &&& Tag.mask = boxed 0 (BitVec.allOnes 11) n 0 ↔
      e = BitVec.allOnes 11 ∧ k = n := by
  rw [boxed_and_tagMask, boxed_inj]
  simp

theorem isNaN_boxed :
    Double.isNaN (boxed s e k p) = true ↔ e = BitVec.allOnes 11 ∧ ¬ (k = 0 ∧ p = 0) := by
  unfold Double.isNaN areAllBitsSet areAnyBitsSet
  rw [specialTag_eq, mantissaMask_eq, boxed_and_boxed, boxed_and_boxed, zero_eq_boxed,
    Bool.and_eq_true, beq_iff_eq, bne_iff_ne, ne_eq, boxed_inj, boxed_inj, BitVec.and_allOnes,
    BitVec.and_allOnes, BitVec.and_allOnes]
  simp

theorem isSNaN_boxed :
    Double.isSNaN (boxed s e k p) = true ↔
      e = BitVec.allOnes 11 ∧ ¬ (k = 0 ∧ p = 0) ∧ k &&& 8 = 0 := by
  unfold Double.isSNaN areNoBitsSet
  rw [Bool.and_eq_true, isNaN_boxed, nanQuietTag_eq, boxed_and_boxed, zero_eq_boxed, beq_iff_eq,
    boxed_inj, and_assoc]
  simp

end Fields

end OMR.Om
