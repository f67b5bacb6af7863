import OMR.GC.CooperativeCopy

/-!
# The progress of a copy

What the header slot of the destination says, how sections are cut from what remains,
and the invariant of the threads that copy an object.
-/

namespace OMR.GC.CooperativeCopy

open OMR.Lib

section Words

variable {r k : BitVec 64}

/-- A size that leaves the other fields of the slot free. -/
def Aligned (r : BitVec 64) : Prop := r &&& sizeAlignment = 0

theorem getLsbD_sizeAlignment (i : ℕ) : sizeAlignment.getLsbD i = decide (i < 12) := by
  have hones : sizeAlignment.toNat = 2 ^ 12 - 1 := by decide
  rw [BitVec.getLsbD, hones, Nat.testBit_two_pow_sub_one]

theorem Aligned.getLsbD (hr : Aligned r) {i : ℕ} (hi : i < 12) : r.getLsbD i = false := by
  have hbit := congrArg (fun z => z.getLsbD i) hr
  simpa [getLsbD_sizeAlignment, hi] using hbit

theorem getLsbD_of_lt_16 (hk : k.toNat < 16) {i : ℕ} (hi : 4 ≤ i) : k.getLsbD i = false :=
  Nat.testBit_lt_two_pow (hk.trans_le (Nat.pow_le_pow_right (by decide) hi : 2 ^ 4 ≤ 2 ^ i))

theorem toNat_and_sizeAlignment (x : BitVec 64) : (x &&& sizeAlignment).toNat = x.toNat % 4096 :=
  (BitVec.toNat_and ..).trans (Nat.and_two_pow_sub_one_eq_mod x.toNat 12)

theorem aligned_iff : Aligned r ↔ r.toNat % 4096 = 0 := by
  rw [← toNat_and_sizeAlignment, Aligned, BitVec.toNat_eq]
  rfl

theorem toNat_and_not_sizeAlignment (x : BitVec 64) :
    (x &&& ~~~sizeAlignment).toNat = x.toNat / 4096 * 4096 := by
  have hshift : x &&& ~~~sizeAlignment = (x >>> 12) <<< 12 := by
    refine BitVec.eq_of_getLsbD_eq fun i hi => ?_
    rw [BitVec.getLsbD_and, BitVec.getLsbD_not, getLsbD_sizeAlignment, BitVec.getLsbD_shiftLeft,
      BitVec.getLsbD_ushiftRight]
    by_cases hlow : i < 12
    · simp [hlow]
    · simp [hi, hlow, show 12 + (i - 12) = i by omega]
  have hx := x.isLt
  rw [hshift, BitVec.toNat_shiftLeft, BitVec.toNat_ushiftRight, Nat.shiftLeft_eq,
    Nat.shiftRight_eq_div_pow, Nat.mod_eq_of_lt (by omega)]

theorem remainingSizeToCopy_progress (hr : Aligned r) (hk : k.toNat < 16) :
    remainingSizeToCopy (progress r k) = r := by
  refine BitVec.eq_of_getLsbD_eq fun i hi => ?_
  rw [remainingSizeToCopy, remainingSizeMask, progress, outstandingCopiesShift, beingCopiedTag,
    BitVec.getLsbD_and, BitVec.getLsbD_not, getLsbD_sizeAlignment, BitVec.getLsbD_or,
    BitVec.getLsbD_or, BitVec.getLsbD_shiftLeft]
  by_cases hlow : i < 12
  · rw [hr.getLsbD hlow, decide_eq_true hlow, Bool.not_true, Bool.and_false, Bool.and_false]
  · rw [getLsbD_of_lt_16 hk (show 4 ≤ i - 8 by omega),
      getLsbD_of_small (show (4#64).toNat < 8 by decide) (show 3 ≤ i by omega)]
    simp only [hi, hlow, decide_true, decide_false, Bool.not_false, Bool.and_true, Bool.and_false,
      Bool.or_false]

theorem outstandingCopies_progress (hr : Aligned r) (hk : k.toNat < 16) :
    outstandingCopies (progress r k) = k := by
  refine BitVec.eq_of_getLsbD_eq fun i hi => ?_
  rw [outstandingCopies, progress, outstandingCopiesShift, beingCopiedTag,
    BitVec.getLsbD_ushiftRight, BitVec.getLsbD_and, getLsbD_sizeAlignment, BitVec.getLsbD_or,
    BitVec.getLsbD_or, BitVec.getLsbD_shiftLeft, Nat.add_sub_cancel_left,
    getLsbD_of_small (show (4#64).toNat < 8 by decide) (show 3 ≤ 8 + i by omega)]
  by_cases hlow : i < 4
  · rw [hr.getLsbD (show 8 + i < 12 by omega)]
    simp only [show 8 + i < 12 by omega, show 8 + i < 64 by omega, show ¬ 8 + i < 8 by omega,
      decide_true, decide_false, Bool.not_false, Bool.and_true, Bool.true_and, Bool.false_or,
      Bool.or_false]
  · rw [getLsbD_of_lt_16 hk (not_lt.1 hlow), decide_eq_false (show ¬ 8 + i < 12 by omega),
      Bool.and_false]

theorem beingCopied_or (x : BitVec 64) : (x ||| beingCopiedTag) &&& beingCopiedTag = beingCopiedTag := by
  refine BitVec.eq_of_getLsbD_eq fun i _ => ?_
  rw [BitVec.getLsbD_and, BitVec.getLsbD_or]
  cases x.getLsbD i <;> simp

theorem beingCopied_progress (r k : BitVec 64) : progress r k &&& beingCopiedTag = beingCopiedTag :=
  beingCopied_or _

/-- A section is cut from the end of what remains, and is not empty. -/
theorem sectionToCopy_spec (hr : Aligned r) (hpos : r ≠ 0) :
    Aligned (sectionToCopy r).2 ∧ (sectionToCopy r).1 ≠ 0 ∧
      (sectionToCopy r).2.toNat + (sectionToCopy r).1.toNat = r.toNat := by
  have hmin : minIncrement.toNat = 131072 := by decide
  have hr' : r.toNat % 4096 = 0 := aligned_iff.1 hr
  have hpos' : 0 < r.toNat := by
    rw [Nat.pos_iff_ne_zero, ne_eq, ← BitVec.toNat_zero, ← BitVec.toNat_eq]
    exact hpos
  obtain ⟨n, hn⟩ : ∃ n, (omrMax ((r >>> 7) &&& ~~~sizeAlignment) minIncrement).toNat = n := ⟨_, rfl⟩
  have hmax : n % 4096 = 0 ∧ 0 < n := by
    rw [← hn, omrMax]
    split
    · rename_i hlt
      have hlt := BitVec.lt_def.1 hlt
      rw [toNat_and_not_sizeAlignment] at hlt ⊢
      omega
    · rw [hmin]
      omega
  have hsize : (sectionToCopy r).1.toNat = min r.toNat n := by
    rw [← hn]
    simp only [sectionToCopy, omrMin, BitVec.lt_def]
    split <;> omega
  have hrest : (sectionToCopy r).2.toNat = r.toNat - min r.toNat n := by
    have hle : (sectionToCopy r).1 ≤ r := BitVec.le_def.2 (hsize.le.trans (min_le_left ..))
    rw [← hsize]
    exact BitVec.toNat_sub_of_le hle
  refine ⟨aligned_iff.2 (by omega), fun hzero => ?_, by omega⟩
  have hzero' := congrArg BitVec.toNat hzero
  rw [hsize] at hzero'
  simp at hzero'
  omega

/-- The first section takes what is not aligned of the object. -/
theorem copySetup_spec {size : BitVec 64} (hsize : 8 ≤ size.toNat) :
    Aligned (copySetup size).2 ∧
      (copySetup size).2.toNat + (copySetup size).1.toNat = size.toNat - 8 := by
  obtain ⟨r, hr⟩ : ∃ r, size - 8#64 = r := ⟨_, rfl⟩
  have hr' : r.toNat = size.toNat - 8 := by
    rw [← hr]
    exact BitVec.toNat_sub_of_le (BitVec.le_def.2 hsize)
  obtain ⟨n, hn⟩ : ∃ n, omrMin r (omrMax (r >>> 7) minIncrement) = n := ⟨_, rfl⟩
  have hle : n.toNat ≤ r.toNat := by
    rw [← hn, omrMin]
    split
    · exact le_rfl
    · rename_i hlt
      exact not_lt.1 hlt
  have hrest : (r - n).toNat = r.toNat - n.toNat := BitVec.toNat_sub_of_le hle
  have hresidue : ((r - n) &&& sizeAlignment).toNat = (r.toNat - n.toNat) % 4096 := by
    rw [toNat_and_sizeAlignment, hrest]
  have hsetup : copySetup size =
      (n + ((r - n) &&& sizeAlignment), (r - n) - ((r - n) &&& sizeAlignment)) := by
    rw [← hn, ← hr]
    rfl
  have hlt := r.isLt
  have hmod : (r.toNat - n.toNat) % 4096 ≤ r.toNat - n.toNat := Nat.mod_le ..
  have hfst : (copySetup size).1.toNat = n.toNat + (r.toNat - n.toNat) % 4096 := by
    rw [hsetup, BitVec.toNat_add, hresidue, Nat.mod_eq_of_lt (by omega)]
  have hsnd : (copySetup size).2.toNat =
      r.toNat - n.toNat - (r.toNat - n.toNat) % 4096 := by
    rw [hsetup]
    change ((r - n) - ((r - n) &&& sizeAlignment)).toNat = _
    rw [BitVec.toNat_sub_of_le (BitVec.le_def.2 (by omega)), hrest, hresidue]
  exact ⟨aligned_iff.2 (by omega), by omega⟩

end Words

section Fixup

variable {preserved : BitVec 64} {changes : List FlagChange}

/-- The header between `commenceFixup` and `commitFixup`. -/
def fixupHeader (preserved : BitVec 64) (changes : List FlagChange) : BitVec 64 :=
  (FlagChange.applyAll changes preserved &&& ~~~copyProgressInfoMask) ||| beingCopiedTag

/-- A change of flags and the step of `commenceFixup` do not depend on their order. -/
theorem FlagChange.Permitted.apply_fixup {c : FlagChange} (hc : c.Permitted) (x : BitVec 64) :
    c.apply ((x &&& ~~~copyProgressInfoMask) ||| beingCopiedTag) =
      (c.apply x &&& ~~~copyProgressInfoMask) ||| beingCopiedTag := by
  refine BitVec.eq_of_getLsbD_eq fun i hi => ?_
  have hbit := congrArg (fun z => z.getLsbD i) hc
  simp only [FlagChange.apply, BitVec.getLsbD_and, BitVec.getLsbD_or, BitVec.getLsbD_not, hi,
    decide_true, Bool.true_and, BitVec.ofNat_eq_ofNat, BitVec.getLsbD_zero] at hbit ⊢
  revert hbit
  generalize x.getLsbD i = a, c.bitsToClear.getLsbD i = clear, c.bitsToSet.getLsbD i = set,
    copyProgressInfoMask.getLsbD i = mask, beingCopiedTag.getLsbD i = tag
  revert a clear set mask tag
  decide

theorem FlagChange.Permitted.apply_and {c : FlagChange} (hc : c.Permitted) (x : BitVec 64) :
    c.apply x &&& (copyProgressInfoMask ||| beingCopiedTag) =
      x &&& (copyProgressInfoMask ||| beingCopiedTag) := by
  refine BitVec.eq_of_getLsbD_eq fun i hi => ?_
  have hbit := congrArg (fun z => z.getLsbD i) hc
  simp only [FlagChange.apply, BitVec.getLsbD_and, BitVec.getLsbD_or, BitVec.getLsbD_not, hi,
    decide_true, Bool.true_and, BitVec.ofNat_eq_ofNat, BitVec.getLsbD_zero] at hbit ⊢
  revert hbit
  generalize x.getLsbD i = a, c.bitsToClear.getLsbD i = clear, c.bitsToSet.getLsbD i = set,
    copyProgressInfoMask.getLsbD i = mask, beingCopiedTag.getLsbD i = tag
  revert a clear set mask tag
  decide

theorem applyAll_and (hchanges : ∀ c ∈ changes, c.Permitted) (x : BitVec 64) :
    FlagChange.applyAll changes x &&& (copyProgressInfoMask ||| beingCopiedTag) =
      x &&& (copyProgressInfoMask ||| beingCopiedTag) := by
  induction changes with
  | nil => rfl
  | cons c changes ih =>
    have hc := hchanges c (List.mem_cons_self ..)
    rw [FlagChange.applyAll, hc.apply_and]
    exact ih fun c' hc' => hchanges c' (List.mem_cons_of_mem _ hc')

/-- A header that agrees with the preserved one but for its flags is what `commitFixup`
makes of it. -/
theorem commitFixup_eq {x : BitVec 64} (htag : preserved &&& beingCopiedTag = 0)
    (hx : x &&& (copyProgressInfoMask ||| beingCopiedTag) =
      preserved &&& (copyProgressInfoMask ||| beingCopiedTag)) :
    commitFixup preserved ((x &&& ~~~copyProgressInfoMask) ||| beingCopiedTag) = x := by
  refine BitVec.eq_of_getLsbD_eq fun i hi => ?_
  have htag' := congrArg (fun z => z.getLsbD i) htag
  have hx' := congrArg (fun z => z.getLsbD i) hx
  simp only [commitFixup, BitVec.getLsbD_and, BitVec.getLsbD_or, BitVec.getLsbD_not, hi,
    decide_true, Bool.true_and, BitVec.ofNat_eq_ofNat, BitVec.getLsbD_zero] at htag' hx' ⊢
  revert htag' hx'
  generalize x.getLsbD i = a, preserved.getLsbD i = p, copyProgressInfoMask.getLsbD i = mask,
    beingCopiedTag.getLsbD i = tag
  revert a p mask tag
  decide

theorem tag_of_applyAll (htag : preserved &&& beingCopiedTag = 0)
    (hchanges : ∀ c ∈ changes, c.Permitted) :
    FlagChange.applyAll changes preserved &&& beingCopiedTag = 0 := by
  have hmask : beingCopiedTag = (copyProgressInfoMask ||| beingCopiedTag) &&& beingCopiedTag := by
    decide
  rw [hmask, ← BitVec.and_assoc, applyAll_and hchanges, BitVec.and_assoc, ← hmask, htag]

/-- Between the two fix-up steps the header shows no work and no helpers. -/
theorem remainingSizeToCopy_fixupHeader : remainingSizeToCopy (fixupHeader preserved changes) = 0 := by
  have hmask : ~~~copyProgressInfoMask &&& remainingSizeMask = 0 := by decide
  have htag : beingCopiedTag &&& remainingSizeMask = 0 := by decide
  rw [remainingSizeToCopy, fixupHeader, BitVec.and_or_distrib_right, BitVec.and_assoc, hmask, htag]
  simp

theorem outstandingCopies_fixupHeader : outstandingCopies (fixupHeader preserved changes) = 0 := by
  have hlow : (FlagChange.applyAll changes preserved &&& ~~~copyProgressInfoMask |||
      beingCopiedTag) &&& sizeAlignment &&& ~~~0xff#64 = 0 := by
    have hmask : ~~~copyProgressInfoMask &&& (sizeAlignment &&& ~~~0xff#64) = 0 := by decide
    have htag : beingCopiedTag &&& (sizeAlignment &&& ~~~0xff#64) = 0 := by decide
    rw [BitVec.and_assoc, BitVec.and_or_distrib_right, BitVec.and_assoc, hmask, htag]
    simp
  refine BitVec.eq_of_getLsbD_eq fun i hi => ?_
  have hbit := congrArg (fun z => z.getLsbD (8 + i)) hlow
  rw [outstandingCopies, fixupHeader, outstandingCopiesShift, BitVec.getLsbD_ushiftRight,
    BitVec.ofNat_eq_ofNat, BitVec.getLsbD_zero]
  have hones : (0xff#64).toNat = 2 ^ 8 - 1 := by decide
  have hff : (0xff#64).getLsbD (8 + i) = false := by
    rw [BitVec.getLsbD, hones, Nat.testBit_two_pow_sub_one]
    exact decide_eq_false (by omega)
  by_cases hi' : 8 + i < 64
  · simp only [BitVec.getLsbD_and, BitVec.getLsbD_not, hff, hi', decide_true, Bool.not_false,
      Bool.and_true, BitVec.ofNat_eq_ofNat, BitVec.getLsbD_zero] at hbit ⊢
    exact hbit
  · exact BitVec.getLsbD_of_ge _ _ (not_lt.1 hi')

end Fixup

/-! ### The invariant -/

/-- `commitFixup` has written the header of the destination. -/
def Winner.Committed : Winner → Prop
  | committed _ => True
  | clearingHint _ _ => True
  | finished _ => True
  | _ => False

/-- `copyOrWaitWinner` has returned. -/
def Winner.Returned : Winner → Prop
  | copying _ => False
  | looping => False
  | loaded _ => False
  | _ => True

/-- The changes of flags made since `commenceFixup`. -/
def Winner.changes : Winner → List FlagChange
  | fixing changes => changes
  | committing changes _ => changes
  | committed changes => changes
  | clearingHint changes _ => changes
  | finished changes => changes
  | _ => []

/-- The bytes that the winner is about to copy. -/
def Winner.pending : Winner → Set ℕ
  | copying sec => sec.pending
  | _ => ∅

/-- The helper is counted in the slot. -/
def Helper.participating : Helper → Bool
  | looping p => p
  | loaded p _ => p
  | copying _ => true
  | _ => false

/-- The bytes that the helper is about to copy. -/
def Helper.pending : Helper → Set ℕ
  | copying sec => sec.pending
  | _ => ∅

/-- What the slot says when `r` bytes remain and `k` helpers take part. -/
def HeaderIs (preserved r k slot : BitVec 64) : Winner → Prop
  | .copying _ => slot = progress r k
  | .looping => slot = progress r k
  | .loaded old => slot = progress r k ∧
      (remainingSizeToCopy old = 0 → outstandingCopies old = 0 → r = 0 ∧ k = 0)
  | .copied => (r = 0 ∧ k = 0) ∧ slot = progress 0 0
  | .fixing changes => (r = 0 ∧ k = 0) ∧ (∀ c ∈ changes, c.Permitted) ∧
      slot = fixupHeader preserved changes
  | .committing changes read => (r = 0 ∧ k = 0) ∧ (∀ c ∈ changes, c.Permitted) ∧
      slot = fixupHeader preserved changes ∧ read = slot
  | .committed changes => (r = 0 ∧ k = 0) ∧ (∀ c ∈ changes, c.Permitted) ∧
      slot = FlagChange.applyAll changes preserved
  | .clearingHint changes _ => (r = 0 ∧ k = 0) ∧ (∀ c ∈ changes, c.Permitted) ∧
      slot = FlagChange.applyAll changes preserved
  | .finished changes => (r = 0 ∧ k = 0) ∧ (∀ c ∈ changes, c.Permitted) ∧
      slot = FlagChange.applyAll changes preserved

/-- Until `commitFixup` takes the hint out, it is in the header of the source. -/
def SourceIs (destination : BitVec 64) (source : MutableHeaderFields .uncompressed) : Winner → Prop
  | .finished _ => True
  | _ => source = forwardedFields .uncompressed destination 6

/-- What a helper knows is true of the winner. -/
def HelperOk (w : Winner) : Helper → Prop
  | .constructed h => h.isBeingCopied = false → w.Committed
  | .loaded _ old => old &&& beingCopiedTag = 0 → w.Committed
  | .returned => w.Committed
  | _ => True

/-- The invariant of a copy of `size` bytes, when `r` bytes remain to be won and `k` helpers
take part. -/
structure Inv {ι : Type*} [Fintype ι] (bytes : ℕ → BitVec 8) (preserved destination size r k : BitVec 64)
    (c : ObjectCopy ι) : Prop where
  aligned : Aligned r
  count : k.toNat = threadCount Helper.participating c.thread
  count_le : k.toNat ≤ maxOutstandingCopies.toNat
  header : HeaderIs preserved r k c.shared.slot c.winner
  source : SourceIs destination c.shared.source c.winner
  sections : Tiles size.toNat (sectionBase r) c.shared.sections
  helper : ∀ i, HelperOk c.winner (c.thread i)
  copied : ∀ x, sectionBase r ≤ x → x < size.toNat →
    c.shared.dest x = bytes x ∨ x ∈ c.winner.pending ∨ ∃ i, x ∈ (c.thread i).pending

end OMR.GC.CooperativeCopy
