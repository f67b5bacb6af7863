import Mathlib.Tactic

/-!
# Forwarded headers

`MM_ForwardedHeader` in the builds with the concurrent scavenger: object headers of
64 bits, and compressed ones of 32 bits in both byte orders, where a forwarding
pointer also covers the 32 bits after the header. The forwarding slot is the first
slot of an object.
-/

namespace OMR.GC

/-- How `MutableHeaderFields` is laid out. -/
inductive HeaderBuild
  | uncompressed
  | compressedLittleEndian
  | compressedBigEndian
deriving DecidableEq

/-- The bits of a `fomrobject_t`. -/
def HeaderBuild.slotBits : HeaderBuild → ℕ
  | uncompressed => 64
  | compressedLittleEndian => 32
  | compressedBigEndian => 32

/-- `fomrobject_t`. -/
abbrev HeaderBuild.Slot (b : HeaderBuild) := BitVec b.slotBits

@[ext] structure MutableHeaderFields (b : HeaderBuild) where
  slot : b.Slot
  /-- The 32 bits after a compressed header, and nothing without compression. -/
  overlap : BitVec (64 - b.slotBits)
deriving DecidableEq

namespace MutableHeaderFields

/-- The fields as they are read through an `uintptr_t`. -/
def word : {b : HeaderBuild} → MutableHeaderFields b → BitVec 64
  | .uncompressed, f => f.slot
  | .compressedLittleEndian, f => (f.overlap ++ f.slot : BitVec (32 + 32))
  | .compressedBigEndian, f => (f.slot ++ f.overlap : BitVec (32 + 32))

/-- The fields as they are written through an `uintptr_t`. -/
def ofWord : (b : HeaderBuild) → BitVec 64 → MutableHeaderFields b
  | .uncompressed, x => ⟨x, 0#0⟩
  | .compressedLittleEndian, x => ⟨x.setWidth 32, (x >>> 32).setWidth 32⟩
  | .compressedBigEndian, x => ⟨(x >>> 32).setWidth 32, x.setWidth 32⟩

end MutableHeaderFields

/-- `OMR_FORWARDED_TAG`. -/
def forwardedTag : BitVec 64 := 4#64

/-- `OMR_BEING_COPIED_HINT`. -/
def beingCopiedHint (b : HeaderBuild) : b.Slot := 2#_

/-- `_selfForwardedTag`: the forwarded tag and `J9_GC_MULTI_SLOT_HOLE`. -/
def selfForwardedTag (b : HeaderBuild) : b.Slot := 4#_ ||| 1#_

/-- An object and a copy of its header. -/
structure ForwardedHeader (b : HeaderBuild) where
  objectPtr : BitVec 64
  preserved : MutableHeaderFields b

namespace ForwardedHeader

variable {b : HeaderBuild}

def isForwardedPointer (h : ForwardedHeader b) : Bool :=
  decide (forwardedTag = h.preserved.slot.setWidth 64 &&& forwardedTag)

def isSelfForwardedPointer (h : ForwardedHeader b) : Bool :=
  decide (selfForwardedTag b = h.preserved.slot &&& selfForwardedTag b)

def isStrictlyForwardedPointer (h : ForwardedHeader b) : Bool :=
  decide (forwardedTag = (h.preserved.slot &&& selfForwardedTag b).setWidth 64)

/-- Strictly forwarded, with the hint that the object might still be copied. -/
def isBeingCopied (h : ForwardedHeader b) : Bool :=
  decide ((beingCopiedHint b).setWidth 64 ||| forwardedTag =
    (h.preserved.slot &&& (beingCopiedHint b ||| selfForwardedTag b)).setWidth 64)

/-- The value that `setForwardedObjectInternal` writes through an `uintptr_t`. -/
def forwardedWord (b : HeaderBuild) (destinationObjectPtr tag : BitVec 64) : BitVec 64 :=
  match b with
  | .compressedBigEndian =>
    ((destinationObjectPtr ||| tag) <<< 32) ||| ((destinationObjectPtr >>> 32) &&& 0xffffffff#64)
  | _ => destinationObjectPtr ||| tag

/-- The compare-and-swap of `setForwardedObjectInternal`: the new header if it succeeds. -/
def casForwarded (h : ForwardedHeader b) (header : MutableHeaderFields b)
    (destinationObjectPtr tag : BitVec 64) : Option (MutableHeaderFields b) :=
  if header.word = h.preserved.word then
    some (.ofWord b (forwardedWord b destinationObjectPtr tag))
  else none

/-- The compare-and-swap of `setSelfForwardedObject`, which is on the slot alone. -/
def casSelfForwarded (h : ForwardedHeader b) (header : MutableHeaderFields b) :
    Option (MutableHeaderFields b) :=
  if header.slot = h.preserved.slot then
    some { header with slot := h.preserved.slot ||| selfForwardedTag b }
  else none

/-- The mask of both tags of a forwarding pointer. -/
def forwardingTags (b : HeaderBuild) : BitVec 64 := forwardedTag ||| (beingCopiedHint b).setWidth 64

/-- What remains of a forwarding pointer without its tags. -/
def restoredForwardingSlotValue (h : ForwardedHeader b) : BitVec 64 :=
  match b with
  | .compressedBigEndian =>
    let hi : BitVec 32 := h.preserved.overlap
    let lo : BitVec 32 := (BitVec.setWidth 64 h.preserved.slot &&&
      ~~~forwardingTags .compressedBigEndian).setWidth 32
    (hi.setWidth 64 <<< 32) ||| lo.setWidth 64
  | b => h.preserved.word &&& ~~~forwardingTags b

/-- `getForwardedObject`; `NULL` is 0. -/
def getForwardedObject (h : ForwardedHeader b) : BitVec 64 :=
  if h.isStrictlyForwardedPointer then h.restoredForwardingSlotValue else 0

def getNonStrictForwardedObject (h : ForwardedHeader b) : BitVec 64 :=
  if h.isStrictlyForwardedPointer then h.restoredForwardingSlotValue
  else if h.isSelfForwardedPointer then h.objectPtr
  else 0

/-- `restoreSelfForwardedPointer`: the header of the object afterwards. -/
def restoreSelfForwardedPointer (h : ForwardedHeader b) (header : MutableHeaderFields b) :
    MutableHeaderFields b :=
  { header with slot := h.preserved.slot &&& ~~~selfForwardedTag b }

end ForwardedHeader

section Tags

variable {b : HeaderBuild}

/-- Words are equal when their tag bits and the other bits are. -/
theorem word_ext {w : ℕ} {x y : BitVec w} (hlow : x.setWidth 3 = y.setWidth 3)
    (hhigh : x >>> 3 = y >>> 3) : x = y := by
  refine BitVec.eq_of_getLsbD_eq fun i hi => ?_
  by_cases h : i < 3
  · have hbit := congrArg (fun z => z.getLsbD i) hlow
    simpa [BitVec.getLsbD_setWidth, h] using hbit
  · have hbit := congrArg (fun z => z.getLsbD (i - 3)) hhigh
    simpa [BitVec.getLsbD_ushiftRight, show 3 + (i - 3) = i by omega] using hbit

/-- The three bits of a header that the tags use. -/
def tagBits {w : ℕ} (x : BitVec w) : BitVec 3 := x.setWidth 3

/-- Not forwarded: no tag bit is set. -/
def TagsClear (f : MutableHeaderFields b) : Prop := tagBits f.slot = 0

instance (f : MutableHeaderFields b) : Decidable (TagsClear f) :=
  inferInstanceAs (Decidable (_ = _))

theorem getLsbD_of_tagBits {w : ℕ} {d : BitVec w} (hd : tagBits d = 0) {i : ℕ} (hi : i < 3) :
    d.getLsbD i = false := by
  have hbit := congrArg (fun z => z.getLsbD i) hd
  simpa [tagBits, BitVec.getLsbD_setWidth, hi] using hbit

/-- A mask of tag bits has no other bits. -/
theorem getLsbD_of_small {w : ℕ} {c : BitVec w} (hc : c.toNat < 8) {i : ℕ} (hi : 3 ≤ i) :
    c.getLsbD i = false :=
  Nat.testBit_lt_two_pow (hc.trans_le (Nat.pow_le_pow_right (by decide) hi : 2 ^ 3 ≤ 2 ^ i))

/-- Tags that are put on an aligned address are taken off by a mask that covers them. -/
theorem clear_tags {w : ℕ} {d tag mask : BitVec w} (hd : tagBits d = 0) (htag : tag &&& ~~~mask = 0)
    (hmask : mask.toNat < 8) : (d ||| tag) &&& ~~~mask = d := by
  refine BitVec.eq_of_getLsbD_eq fun i hi => ?_
  have hbit := congrArg (fun z => z.getLsbD i) htag
  simp only [BitVec.getLsbD_and, BitVec.getLsbD_or, BitVec.getLsbD_not, hi, decide_true,
    Bool.true_and, BitVec.ofNat_eq_ofNat, BitVec.getLsbD_zero] at hbit ⊢
  by_cases hlow : i < 3
  · rw [getLsbD_of_tagBits hd hlow, Bool.false_or, hbit]
  · rw [getLsbD_of_small hmask (not_lt.1 hlow), Bool.not_false, Bool.and_true] at *
    rw [hbit, Bool.or_false]

end Tags

section Forwarded

variable {b : HeaderBuild} {d tag : BitVec 64}

theorem MutableHeaderFields.word_ofWord (b : HeaderBuild) (x : BitVec 64) :
    (MutableHeaderFields.ofWord b x).word = x := by
  have hhalves : ((x >>> 32).setWidth 32 ++ x.setWidth 32 : BitVec (32 + 32)) = x := by
    refine BitVec.eq_of_getLsbD_eq fun i hi => ?_
    rw [BitVec.getLsbD_append]
    by_cases hlow : i < 32
    · simp [hlow]
    · simp [hlow, show i - 32 < 32 by omega, show 32 + (i - 32) = i by omega]
  cases b
  · rfl
  · exact hhalves
  · exact hhalves

/-- The fields of an object that is forwarded to `d`. -/
def forwardedFields (b : HeaderBuild) (d tag : BitVec 64) : MutableHeaderFields b :=
  ⟨(d ||| tag).setWidth _, (d >>> 32).setWidth _⟩

/-- The two tags that a forwarding pointer may have. -/
def IsForwardingTag (tag : BitVec 64) : Prop := tag = 4#64 ∨ tag = 6#64

theorem and_lower_half (x : BitVec 64) : (x >>> 32) &&& 0xffffffff#64 = x >>> 32 := by
  refine BitVec.eq_of_getLsbD_eq fun i hi => ?_
  rw [BitVec.getLsbD_and, BitVec.getLsbD_ushiftRight]
  by_cases hlow : i < 32
  · have hmask : (0xffffffff#64).getLsbD i = true := by
      have hones : (0xffffffff#64).toNat = 2 ^ 32 - 1 := by decide
      rw [BitVec.getLsbD, hones, Nat.testBit_two_pow_sub_one]
      exact decide_eq_true hlow
    rw [hmask, Bool.and_true]
  · rw [BitVec.getLsbD_of_ge x (32 + i) (by omega), Bool.false_and]

/-- What the compare-and-swap writes, in every build. -/
theorem ofWord_forwardedWord (htag : IsForwardingTag tag) :
    MutableHeaderFields.ofWord b (ForwardedHeader.forwardedWord b d tag) =
      forwardedFields b d tag := by
  have hsmall : tag.toNat < 8 := by
    rcases htag with rfl | rfl <;> decide
  cases b
  · ext1
    · exact (BitVec.setWidth_eq _).symm
    · exact BitVec.eq_of_getLsbD_eq fun i hi => absurd hi (Nat.not_lt_zero i)
  · ext1
    · rfl
    · refine BitVec.eq_of_getLsbD_eq fun i hi => ?_
      simp only [HeaderBuild.slotBits] at hi
      simp [MutableHeaderFields.ofWord, ForwardedHeader.forwardedWord, forwardedFields,
        HeaderBuild.slotBits, getLsbD_of_small hsmall (show 3 ≤ 32 + i by omega)]
  · have hword : ForwardedHeader.forwardedWord .compressedBigEndian d tag =
        ((d ||| tag) <<< 32) ||| (d >>> 32) := by
      rw [ForwardedHeader.forwardedWord, and_lower_half]
    rw [hword]
    ext1
    · refine BitVec.eq_of_getLsbD_eq fun i hi => ?_
      simp only [HeaderBuild.slotBits] at hi
      simp only [MutableHeaderFields.ofWord, forwardedFields, HeaderBuild.slotBits,
        BitVec.getLsbD_setWidth, BitVec.getLsbD_ushiftRight, BitVec.getLsbD_or,
        BitVec.getLsbD_shiftLeft, hi, decide_true, Bool.true_and, show 32 + i < 64 by omega,
        show ¬ 32 + i < 32 by omega, decide_false, Bool.not_false, Nat.add_sub_cancel_left,
        BitVec.getLsbD_of_ge d (32 + (32 + i)) (by omega), Bool.or_false]
    · refine BitVec.eq_of_getLsbD_eq fun i hi => ?_
      simp only [HeaderBuild.slotBits] at hi
      simp [MutableHeaderFields.ofWord, forwardedFields, HeaderBuild.slotBits, hi]

theorem tagBits_forwardedFields (hd : tagBits d = 0) :
    tagBits (forwardedFields b d tag).slot = tagBits tag := by
  have hor : tagBits (d ||| tag) = tagBits tag := by
    rw [tagBits, BitVec.setWidth_or]
    change tagBits d ||| tagBits tag = _
    rw [hd, BitVec.ofNat_eq_ofNat, BitVec.zero_or]
  rw [← hor]
  cases b <;> simp [tagBits, forwardedFields, HeaderBuild.slotBits]

/-- The hint is removed from a forwarding pointer by a write to the slot alone. -/
theorem clear_hint (hd : tagBits d = 0) (htag : IsForwardingTag tag) :
    (forwardedFields b d tag).slot &&& ~~~beingCopiedHint b = (forwardedFields b d 4#64).slot := by
  have htag : tag.setWidth b.slotBits &&& ~~~beingCopiedHint b = (4#64).setWidth b.slotBits := by
    rcases htag with rfl | rfl <;> cases b <;> decide
  have hsmall : (beingCopiedHint b).toNat < 8 := by
    cases b <;> decide
  have hlow : tagBits (d.setWidth b.slotBits) = 0 := by
    rw [← hd]
    cases b <;> simp [tagBits, HeaderBuild.slotBits]
  have hkeep : d.setWidth b.slotBits &&& ~~~beingCopiedHint b = d.setWidth b.slotBits := by
    have hclear := clear_tags hlow (BitVec.zero_and (x := ~~~beingCopiedHint b)) hsmall
    rwa [BitVec.or_zero] at hclear
  rw [forwardedFields, forwardedFields, BitVec.setWidth_or, BitVec.setWidth_or,
    BitVec.and_or_distrib_right, htag, hkeep]

namespace ForwardedHeader

variable {objectPtr : BitVec 64}

theorem restored_forwardedFields (hd : tagBits d = 0) (htag : IsForwardingTag tag) :
    (ForwardedHeader.mk objectPtr (forwardedFields b d tag)).restoredForwardingSlotValue = d := by
  have hmask : tag &&& ~~~forwardingTags b = 0 := by
    rcases htag with rfl | rfl <;> cases b <;> decide
  have hsmall : (forwardingTags b).toNat < 8 := by
    cases b <;> decide
  have hclear : (d ||| tag) &&& ~~~forwardingTags b = d := clear_tags hd hmask hsmall
  cases b
  · exact hclear
  · have hword : (forwardedFields .compressedLittleEndian d tag).word = d ||| tag := by
      rw [← ofWord_forwardedWord htag, MutableHeaderFields.word_ofWord]
      rfl
    change (forwardedFields .compressedLittleEndian d tag).word &&& _ = d
    rw [hword]
    exact hclear
  · have hlo : (BitVec.setWidth 64 ((d ||| tag).setWidth 32) &&&
        ~~~forwardingTags .compressedBigEndian).setWidth 32 = d.setWidth 32 := by
      rw [BitVec.setWidth_and, BitVec.setWidth_setWidth_of_le _ (by decide), BitVec.setWidth_eq,
        ← BitVec.setWidth_and, hclear]
    change ((d >>> 32).setWidth 32).setWidth 64 <<< 32 |||
      ((BitVec.setWidth 64 ((d ||| tag).setWidth 32) &&&
        ~~~forwardingTags .compressedBigEndian).setWidth 32).setWidth 64 = d
    rw [hlo]
    refine BitVec.eq_of_getLsbD_eq fun i hi => ?_
    by_cases hlow : i < 32
    · simp [hlow, hi]
    · simp [hlow, hi, show i - 32 < 32 by omega, show 32 + (i - 32) = i by omega]

end ForwardedHeader

end Forwarded

/-! ### What a reading of a header says -/

section Readings

variable {b : HeaderBuild} {d tag : BitVec 64}

theorem and_tags_eq_iff {w : ℕ} {x mask c : BitVec w} (hmask : mask.toNat < 8) (hc : c.toNat < 8) :
    c = x &&& mask ↔ tagBits c = tagBits x &&& tagBits mask := by
  have hlow : tagBits (x &&& mask) = tagBits x &&& tagBits mask := BitVec.setWidth_and
  constructor
  · intro h
    rw [h, hlow]
  · intro h
    refine word_ext (h.trans hlow.symm) (BitVec.eq_of_getLsbD_eq fun i _ => ?_)
    rw [BitVec.getLsbD_ushiftRight, BitVec.getLsbD_ushiftRight, BitVec.getLsbD_and,
      getLsbD_of_small hc (Nat.le_add_right 3 i), getLsbD_of_small hmask (Nat.le_add_right 3 i),
      Bool.and_false]

theorem tagBits_setWidth (x : b.Slot) : tagBits (x.setWidth 64) = tagBits x := by
  cases b
  · exact BitVec.setWidth_setWidth_of_le _ (by decide)
  · exact BitVec.setWidth_setWidth_of_le _ (by decide)
  · exact BitVec.setWidth_setWidth_of_le _ (by decide)

theorem tagBits_selfForwardedTag (b : HeaderBuild) : tagBits (selfForwardedTag b) = 5 := by
  cases b <;> rfl

theorem selfForwardedTag_lt (b : HeaderBuild) : (selfForwardedTag b).toNat < 8 := by
  cases b <;> decide

namespace ForwardedHeader

theorem isForwardedPointer_iff (h : ForwardedHeader b) :
    h.isForwardedPointer = true ↔ tagBits h.preserved.slot &&& 4 = 4 := by
  rw [isForwardedPointer, decide_eq_true_iff, and_tags_eq_iff (by decide) (by decide),
    tagBits_setWidth]
  exact eq_comm

theorem isSelfForwardedPointer_iff (h : ForwardedHeader b) :
    h.isSelfForwardedPointer = true ↔ tagBits h.preserved.slot &&& 5 = 5 := by
  rw [isSelfForwardedPointer, decide_eq_true_iff,
    and_tags_eq_iff (selfForwardedTag_lt b) (selfForwardedTag_lt b), tagBits_selfForwardedTag]
  exact eq_comm

theorem isStrictlyForwardedPointer_iff (h : ForwardedHeader b) :
    h.isStrictlyForwardedPointer = true ↔ tagBits h.preserved.slot &&& 5 = 4 := by
  have hsmall : ((selfForwardedTag b).setWidth 64).toNat < 8 := by
    cases b <;> decide
  rw [isStrictlyForwardedPointer, decide_eq_true_iff, BitVec.setWidth_and,
    and_tags_eq_iff hsmall (by decide), tagBits_setWidth, tagBits_setWidth,
    tagBits_selfForwardedTag]
  exact eq_comm

theorem isBeingCopied_iff (h : ForwardedHeader b) :
    h.isBeingCopied = true ↔ tagBits h.preserved.slot &&& 7 = 6 := by
  have hmask : ((beingCopiedHint b ||| selfForwardedTag b).setWidth 64).toNat < 8 := by
    cases b <;> decide
  have hhint : ((beingCopiedHint b).setWidth 64 ||| forwardedTag).toNat < 8 := by
    cases b <;> decide
  have hhint' : tagBits ((beingCopiedHint b).setWidth 64 ||| forwardedTag) = 6 := by
    cases b <;> rfl
  have hmask' : tagBits ((beingCopiedHint b ||| selfForwardedTag b).setWidth 64) = 7 := by
    cases b <;> rfl
  rw [isBeingCopied, decide_eq_true_iff, BitVec.setWidth_and, and_tags_eq_iff hmask hhint,
    tagBits_setWidth, hmask', hhint']
  exact eq_comm

theorem isBeingCopied_forwardedFields (objectPtr : BitVec 64) (hd : tagBits d = 0) :
    (ForwardedHeader.mk objectPtr (forwardedFields b d 6)).isBeingCopied = true := by
  rw [isBeingCopied_iff, tagBits_forwardedFields hd]
  rfl

/-- What a thread finds out from a header that forwards the object to `d`. -/
theorem reading_forwardedFields (objectPtr : BitVec 64) (hd : tagBits d = 0)
    (htag : IsForwardingTag tag) :
    let reading := ForwardedHeader.mk objectPtr (forwardedFields b d tag)
    reading.isForwardedPointer = true ∧ reading.isSelfForwardedPointer = false ∧
      reading.isStrictlyForwardedPointer = true ∧ reading.getForwardedObject = d ∧
      reading.getNonStrictForwardedObject = d := by
  intro reading
  have hbits : tagBits reading.preserved.slot = tagBits tag := tagBits_forwardedFields hd
  have hstrict : reading.isStrictlyForwardedPointer = true := by
    rw [isStrictlyForwardedPointer_iff, hbits]
    rcases htag with rfl | rfl <;> rfl
  have hrestored : reading.restoredForwardingSlotValue = d := restored_forwardedFields hd htag
  refine ⟨?_, ?_, hstrict, ?_, ?_⟩
  · rw [isForwardedPointer_iff, hbits]
    rcases htag with rfl | rfl <;> rfl
  · rw [Bool.eq_false_iff, ne_eq, isSelfForwardedPointer_iff, hbits]
    rcases htag with rfl | rfl <;> decide
  · rw [getForwardedObject, if_pos hstrict, hrestored]
  · rw [getNonStrictForwardedObject, if_pos hstrict, hrestored]

/-- The header of an object that has been forwarded to itself. -/
def selfForwardedFields (h : ForwardedHeader b) : MutableHeaderFields b :=
  { h.preserved with slot := h.preserved.slot ||| selfForwardedTag b }

theorem tagBits_selfForwardedFields {h : ForwardedHeader b} (hclear : TagsClear h.preserved) :
    tagBits h.selfForwardedFields.slot = 5 := by
  have hor : tagBits h.selfForwardedFields.slot =
      tagBits h.preserved.slot ||| tagBits (selfForwardedTag b) := BitVec.setWidth_or
  rw [hor, hclear, tagBits_selfForwardedTag]
  rfl

/-- What a thread finds out from the header of an object that has been forwarded to itself. -/
theorem reading_selfForwardedFields {h : ForwardedHeader b} (hclear : TagsClear h.preserved) :
    let reading := ForwardedHeader.mk h.objectPtr h.selfForwardedFields
    reading.isForwardedPointer = true ∧ reading.isSelfForwardedPointer = true ∧
      reading.isStrictlyForwardedPointer = false ∧ reading.getForwardedObject = 0 ∧
      reading.getNonStrictForwardedObject = h.objectPtr := by
  intro reading
  have hbits : tagBits reading.preserved.slot = 5 := tagBits_selfForwardedFields hclear
  have hself : reading.isSelfForwardedPointer = true := by
    rw [isSelfForwardedPointer_iff, hbits]
    rfl
  have hstrict : reading.isStrictlyForwardedPointer = false := by
    rw [Bool.eq_false_iff, ne_eq, isStrictlyForwardedPointer_iff, hbits]
    decide
  refine ⟨?_, hself, hstrict, ?_, ?_⟩
  · rw [isForwardedPointer_iff, hbits]
    rfl
  · rw [getForwardedObject, hstrict, if_neg Bool.false_ne_true]
  · rw [getNonStrictForwardedObject, hstrict, if_neg Bool.false_ne_true, if_pos hself]

theorem restore_selfForwardedFields {h : ForwardedHeader b} (hclear : TagsClear h.preserved) :
    (ForwardedHeader.mk h.objectPtr h.selfForwardedFields).restoreSelfForwardedPointer
      h.selfForwardedFields = h.preserved := by
  have hslot : (h.preserved.slot ||| selfForwardedTag b) &&& ~~~selfForwardedTag b =
      h.preserved.slot := by
    refine clear_tags hclear ?_ (selfForwardedTag_lt b)
    cases b <;> decide
  ext1
  · exact hslot
  · rfl

end ForwardedHeader

theorem MutableHeaderFields.ofWord_word (f : MutableHeaderFields b) : ofWord b f.word = f := by
  have hhigh (x y : BitVec 32) : ((x ++ y : BitVec (32 + 32)) >>> 32).setWidth 32 = x := by
    refine BitVec.eq_of_getLsbD_eq fun i hi => ?_
    rw [BitVec.getLsbD_setWidth, BitVec.getLsbD_ushiftRight, BitVec.getLsbD_append,
      if_neg (by omega), Nat.add_sub_cancel_left, decide_eq_true hi, Bool.true_and]
  have hlow (x y : BitVec 32) : (x ++ y : BitVec (32 + 32)).setWidth 32 = y := by
    refine BitVec.eq_of_getLsbD_eq fun i hi => ?_
    rw [BitVec.getLsbD_setWidth, BitVec.getLsbD_append, if_pos hi, decide_eq_true hi, Bool.true_and]
  cases b
  · ext1
    · rfl
    · exact BitVec.eq_of_getLsbD_eq fun i hi => absurd hi (Nat.not_lt_zero i)
  · ext1
    · exact hlow f.overlap f.slot
    · exact hhigh f.overlap f.slot
  · ext1
    · exact hhigh f.slot f.overlap
    · exact hlow f.slot f.overlap

theorem MutableHeaderFields.word_injective : Function.Injective (word (b := b)) :=
  Function.LeftInverse.injective ofWord_word

end Readings

end OMR.GC
