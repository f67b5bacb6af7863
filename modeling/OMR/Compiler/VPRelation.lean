import OMR.Compiler.VPArithmetic
import OMR.Compiler.VPCompare
import OMR.Compiler.VPMergeSound

/-!
# Relations between two values

A `VPRelation` says how a value compares with another one plus an increment of 32 bits. From what is
known of the value follows a constraint for the other one, and from two relations of a value one
between the two others. The objects of the hash table matter to 64-bit subtraction only.
-/

namespace OMR.Compiler

open OMR.Lib

/-- `VPLessThanOrEqual`, `VPGreaterThanOrEqual`, `VPEqual` and `VPNotEqual`. -/
inductive Relation
  | lessThanOrEqual
  | greaterThanOrEqual
  | equal
  | notEqual
deriving DecidableEq, Repr

/-- A `VPRelation` with its mark `hasArtificialIncrement`. -/
structure VPRelation where
  relation : Relation
  increment : ℤ
  hasArtificialIncrement : Bool
deriving DecidableEq, Repr

/-- `asIntConstraint` and `asLongConstraint`: a list is neither. -/
def VPConstraint.asConstraint (w : Width) : VPConstraint → Option VPSimple
  | simple s => if s.width = w then some s else none
  | merged _ => none

/-- The value of `asIntConst` and `asLongConst`. -/
def VPConstraint.asConst (w : Width) : VPConstraint → Option ℤ
  | simple (.const w' v) => if w' = w then some v else none
  | simple (.range _ _ _ _) => none
  | merged _ => none

/-! ## From a constraint -/

/-- The constraint of `VPLessThanOrEqual::propagateAbsoluteConstraint` at a width. -/
def fromLowBound (w : Width) (oldBound increment : ℤ) : Option VPConstraint :=
  let newBound := w.wrap (oldBound - increment)
  if increment < 0 then none
  else if newBound > oldBound then none
  else (rangeCreate w newBound (w.wrap (w.maxSigned - increment))).map .simple

/-- The constraint of `VPGreaterThanOrEqual::propagateAbsoluteConstraint` at a width. -/
def fromHighBound (w : Width) (oldBound increment : ℤ) : Option VPConstraint :=
  let newBound := w.wrap (oldBound - increment)
  if increment > 0 then none
  else if newBound < oldBound then none
  else (rangeCreate w (w.wrap (w.minSigned - increment)) newBound).map .simple

/-- The constraint of `VPNotEqual::propagateAbsoluteConstraint` at a width. -/
def withoutValue (w : Width) (excludedValue : ℤ) : Outcome (Option VPConstraint) :=
  let newConstraint :=
    if excludedValue ≠ w.minSigned then
      (rangeCreate w w.minSigned (excludedValue - 1)).map VPConstraint.simple
    else none
  if excludedValue ≠ w.maxSigned then
    match newConstraint, (rangeCreate w (excludedValue + 1) w.maxSigned).map VPConstraint.simple with
    | some below, some above => below.merge above
    | some _, none => .nullDereference
    | none, above => .done above
  else .done newConstraint

namespace VPRelation

/-- `propagateAbsoluteConstraint` of the four classes. -/
def propagateAbsoluteConstraint (vp : ValuePropagation) (this : VPRelation)
    (constraint : VPConstraint) : Outcome (Option VPConstraint × ValuePropagation) :=
  match this.relation with
  | .lessThanOrEqual =>
    match constraint.asConstraint .long, constraint.getLowInt with
    | some s, _ => .done (fromLowBound .long s.getLow this.increment, vp)
    | none, some oldBound => .done (fromLowBound .int oldBound this.increment, vp)
    | none, none => .nullDereference
  | .greaterThanOrEqual =>
    match constraint.asConstraint .long, constraint.getHighInt with
    | some s, _ => .done (fromHighBound .long s.getHigh this.increment, vp)
    | none, some oldBound => .done (fromHighBound .int oldBound this.increment, vp)
    | none, none => .nullDereference
  | .equal =>
    if this.increment = 0 then .done (some constraint, vp)
    else
      match constraint.asConstraint .long, constraint.asConstraint .int with
      | some s, _ => s.subtract vp (.const .long this.increment) .long
      | none, some s => s.subtract vp (.const .int this.increment) .int
      | none, none => .done (none, vp)
  | .notEqual =>
    match constraint.asConst .long, constraint.asConst .int with
    | some v, _ =>
      (withoutValue .long (Width.long.wrap (v - this.increment))).bind fun r => .done (r, vp)
    | none, some v =>
      (withoutValue .int (Width.int.wrap (v - this.increment))).bind fun r => .done (r, vp)
    | none, none => .done (none, vp)

/-! ## From another relation -/

/-- The difference of the increments, where it does not wrap around. The least number is given up
because it has no negation. -/
def newIncr (this other : VPRelation) : Option ℤ :=
  let newIncr := Width.int.wrap (other.increment - this.increment)
  if newIncr = Width.int.minSigned then none
  else if this.increment ≥ 0 then
    if newIncr > other.increment then none else some newIncr
  else if newIncr < other.increment then none else some newIncr

/-- The mark of the new relation when it is taken from either of the two. -/
def artificialOfBoth (this other : VPRelation) (newIncr : ℤ) : Bool :=
  if newIncr = other.increment then other.hasArtificialIncrement
  else if newIncr = -1 * this.increment then this.hasArtificialIncrement
  else false

/-- `propagateRelativeConstraint` of the four classes. -/
def propagateRelativeConstraint (this other : VPRelation) : Option VPRelation :=
  match this.relation with
  | .lessThanOrEqual =>
    if other.relation ≠ .greaterThanOrEqual ∧ other.relation ≠ .equal then none
    else (this.newIncr other).map fun n =>
      ⟨.greaterThanOrEqual, n, this.artificialOfBoth other n⟩
  | .greaterThanOrEqual =>
    if other.relation ≠ .lessThanOrEqual ∧ other.relation ≠ .equal then none
    else (this.newIncr other).map fun n => ⟨.lessThanOrEqual, n, this.artificialOfBoth other n⟩
  | .equal =>
    (this.newIncr other).map fun n =>
      match other.relation with
      | .lessThanOrEqual => ⟨.lessThanOrEqual, n, this.artificialOfBoth other n⟩
      | .greaterThanOrEqual =>
        ⟨.greaterThanOrEqual, n, decide (n = other.increment) && other.hasArtificialIncrement⟩
      | .notEqual => ⟨.notEqual, n, false⟩
      | .equal => ⟨.equal, n, false⟩
  | .notEqual =>
    if other.relation ≠ .equal then none
    else (this.newIncr other).map fun n => ⟨.notEqual, n, false⟩

/-- The increments of the source are numbers of 32 bits. -/
def Valid (this : VPRelation) : Prop :=
  Width.int.minSigned ≤ this.increment ∧ this.increment ≤ Width.int.maxSigned

/-- What a relation says of two values. -/
def Holds (this : VPRelation) (x y : ℤ) : Prop :=
  match this.relation with
  | .lessThanOrEqual => x ≤ y + this.increment
  | .greaterThanOrEqual => x ≥ y + this.increment
  | .equal => x = y + this.increment
  | .notEqual => x ≠ y + this.increment

end VPRelation

/-- The values of a type. -/
def Width.Has (w : Width) (x : ℤ) : Prop := w.minSigned ≤ x ∧ x ≤ w.maxSigned

section Bounds

variable {w : Width} {bound increment x y : ℤ}

/-- A number of 32 bits is one of a wider type. -/
theorem VPRelation.Valid.has {R : VPRelation} (h : R.Valid) (hw : w ≠ .short) :
    w.Has R.increment := by
  cases w with
  | short => exact absurd rfl hw
  | int => exact h
  | long =>
    obtain ⟨hlow, hhigh⟩ := h
    simp only [Width.minSigned, Width.maxSigned, Width.half] at hlow hhigh
    constructor <;> simp only [Width.minSigned, Width.maxSigned, Width.half] <;> omega

theorem mem_fromLowBound (hbound : w.Has bound) (hincr : w.Has increment)
    (hy : w.Has (y + increment)) (hle : bound ≤ y + increment) : y ∈ VPConstraint.allowed (fromLowBound w bound increment) := by
  obtain ⟨hlow, hhigh⟩ := hbound
  obtain ⟨hincrlow, hincrhigh⟩ := hincr
  have hymax := hy.2
  rw [fromLowBound]
  split_ifs with hneg hwrapped
  · exact Set.mem_univ y
  · exact Set.mem_univ y
  · have hnew : w.wrap (bound - increment) = bound - increment := by
      by_contra hne
      have hout : bound - increment < w.minSigned := by
        by_contra hin
        exact hne (Width.wrap_of_mem (not_lt.1 hin) (by omega))
      have hwrap := Width.wrap_of_lt
        (by simp only [Width.minSigned, Width.maxSigned] at *; omega) hout
      simp only [Width.minSigned, Width.maxSigned] at *
      omega
    have htop : w.wrap (w.maxSigned - increment) = w.maxSigned - increment :=
      Width.wrap_of_mem (by simp only [Width.minSigned, Width.maxSigned] at *; omega) (by omega)
    rw [hnew, htop]
    exact VPConstraint.mem_allowed_simple (fun t ht => (rangeCreate_some ht).2) (by omega)

theorem mem_fromHighBound (hbound : w.Has bound) (hincr : w.Has increment)
    (hy : w.Has (y + increment)) (hle : y + increment ≤ bound) :
    y ∈ VPConstraint.allowed (fromHighBound w bound increment) := by
  obtain ⟨hlow, hhigh⟩ := hbound
  obtain ⟨hincrlow, hincrhigh⟩ := hincr
  have hymin := hy.1
  rw [fromHighBound]
  split_ifs with hpos hwrapped
  · exact Set.mem_univ y
  · exact Set.mem_univ y
  · have hnew : w.wrap (bound - increment) = bound - increment := by
      by_contra hne
      have hout : w.maxSigned < bound - increment := by
        by_contra hin
        exact hne (Width.wrap_of_mem (by omega) (not_lt.1 hin))
      have hwrap := Width.wrap_of_gt hout
        (by simp only [Width.minSigned, Width.maxSigned] at *; omega)
      simp only [Width.minSigned, Width.maxSigned] at *
      omega
    have hbottom : w.wrap (w.minSigned - increment) = w.minSigned - increment :=
      Width.wrap_of_mem (by omega) (by simp only [Width.minSigned, Width.maxSigned] at *; omega)
    rw [hnew, hbottom]
    exact VPConstraint.mem_allowed_simple (fun t ht => (rangeCreate_some ht).2) (by omega)

end Bounds

theorem withoutValue_spec {w : Width} {v : ℤ} (hv : w.Has v) :
    ∃ r, withoutValue w v = .done r ∧
      ∀ y, w.Has y → y ≠ v → y ∈ VPConstraint.allowed r := by
  obtain ⟨hmin, hmax⟩ := hv
  have hlt := w.minSigned_lt_maxSigned
  rw [withoutValue]
  by_cases hlow : v = w.minSigned
  · simp only [if_neg (not_not.2 hlow), if_pos (show v ≠ w.maxSigned by omega)]
    refine ⟨_, rfl, fun y hy hne => ?_⟩
    obtain ⟨hylow, hyhigh⟩ := hy
    exact VPConstraint.mem_allowed_simple (fun t ht => (rangeCreate_some ht).2) (by omega)
  by_cases hhigh : v = w.maxSigned
  · simp only [if_pos hlow, if_neg (not_not.2 hhigh)]
    refine ⟨_, rfl, fun y hy hne => ?_⟩
    obtain ⟨hylow, hyhigh⟩ := hy
    exact VPConstraint.mem_allowed_simple (fun t ht => (rangeCreate_some ht).2) (by omega)
  obtain ⟨t, hcreate, ht, htw, hti⟩ := @exists_rangeCreate w w.minSigned (v - 1) le_rfl
    (by omega) (by omega) (by omega)
  obtain ⟨u, hcreate', hu, huw, hui⟩ := @exists_rangeCreate w (v + 1) w.maxSigned (by omega)
    (by omega) le_rfl (by omega)
  obtain ⟨r, hr, hsub, -⟩ := VPConstraint.mergesSoundly_same ht hu htw huw
  simp only [if_pos hlow, if_pos hhigh, hcreate, hcreate', Option.map_some]
  refine ⟨r, hr, fun y hy hne => hsub ?_⟩
  obtain ⟨hylow, hyhigh⟩ := hy
  have htlow : t.getLow = w.minSigned := congrArg Interval.low hti
  have hthigh : t.getHigh = v - 1 := congrArg Interval.high hti
  have hulow : u.getLow = v + 1 := congrArg Interval.low hui
  have huhigh : u.getHigh = w.maxSigned := congrArg Interval.high hui
  rcases lt_or_gt_of_ne hne with hbelow | habove
  · exact .inl (VPSimple.mem_values.2 (by omega))
  · exact .inr (VPSimple.mem_values.2 (by omega))

/-! ### Exact differences -/

section Differences

variable {w : Width} {S : Set ℤ} {L H : ℤ}

/-- Results that do not overflow are allowed, also where the flag of the result is wrong. -/
theorem narrowGetRange_contains (hw : w ≠ .long) (vp : ValuePropagation)
    (h : ExactResults w S L H) :
    ∃ r, narrowGetRange w (bound w L).1 (bound w H).1 (bound w L).2 (bound w H).2 = .done r ∧
      ∀ s ∈ S, w.Has s → s ∈ VPConstraint.allowed r := by
  obtain ⟨r, hr, hiff⟩ := narrowGetRange_sound_iff hw vp h
  refine ⟨r, hr, fun s hs hin => ?_⟩
  obtain ⟨hmin, hmax⟩ := hin
  have hs' := h.between s hs
  have hfine : NarrowFine w L H := by
    rintro ⟨heq, hout⟩
    omega
  have hallowed := (hiff.2 hfine).contains s hs
  rwa [Width.wrap_of_mem hmin hmax] at hallowed

theorem longGetRange_contains (vp : ValuePropagation) (h : ExactResults .long S L H) :
    ∃ r vp', VPLongConstraint.getRange vp (bound .long L).1 (bound .long H).1 (bound .long L).2
        (bound .long H).2 = .done (r, vp') ∧
      ∀ s ∈ S, Width.long.Has s → s ∈ VPConstraint.allowed r := by
  have hle := h.le
  have hminmax := Width.long.minSigned_lt_maxSigned
  cases position .long L H with
  | inside hL hH =>
    rw [bound_inside hL (by omega), bound_inside (by omega) hH]
    refine ⟨(VPLongRange.createIn vp L H false .no).1.map .simple,
      (VPLongRange.createIn vp L H false .no).2, rfl, fun s hs _ => ?_⟩
    rw [VPLongRange.createIn_fst]
    exact VPConstraint.mem_allowed_simple (fun t ht => ⟨(VPLongRange.create_some ht).1,
      (VPLongRange.create_some ht).2.1⟩) (h.between s hs)
  | sameSide hside =>
    rw [bound_outside (by omega), bound_outside (by omega), VPLongConstraint.getRange]
    simp only [Bool.and_self, if_true, if_neg (h.xor_wrap.1 hside)]
    refine ⟨_, _, rfl, fun s hs hin => ?_⟩
    obtain ⟨hmin, hmax⟩ := hin
    have hs' := h.between s hs
    omega
  | around hL hH =>
    rw [bound_outside (Or.inl hL), bound_outside (Or.inr hH), VPLongConstraint.getRange]
    simp only [Bool.and_self, if_true, if_pos (h.xor_wrap.2 hL hH)]
    exact ⟨none, vp, rfl, fun _ _ _ => Set.mem_univ _⟩
  | oneOut hout =>
    have hflags := oneOut_flags hout
    show ∃ r vp', VPLongConstraint.getRange vp (Width.long.wrap L) (Width.long.wrap H)
      (bound .long L).2 (bound .long H).2 = .done (r, vp') ∧ _
    rw [VPLongConstraint.getRange, hflags.1, hflags.2]
    simp only [Bool.false_eq_true, if_false, if_true]
    by_cases hge : Width.long.wrap H ≥ Width.long.wrap L
    · exact ⟨none, vp, if_pos hge, fun _ _ _ => Set.mem_univ _⟩
    · obtain ⟨t, ht⟩ := VPLongRange.create_powerOfTwo Width.long.minSigned (Width.long.wrap H) .no
      obtain ⟨u, hu⟩ := VPLongRange.create_powerOfTwo (Width.long.wrap L) Width.long.maxSigned .no
      refine ⟨some (.merged [.simple t, .simple u]), (VPLongRange.createIn
        (VPLongRange.createIn vp Width.long.minSigned (Width.long.wrap H) true .no).2
        (Width.long.wrap L) Width.long.maxSigned true .no).2, ?_, fun s hs hin => ?_⟩
      · rw [if_neg hge, VPLongRange.createIn_fst, VPLongRange.createIn_fst, ht, hu]
        rfl
      · obtain ⟨htlow, hthigh, -, -⟩ := VPLongRange.create_some ht
        obtain ⟨hulow, huhigh, -, -⟩ := VPLongRange.create_some hu
        have hpart := h.wrap_mem_oneOut hout hs
        rw [Width.wrap_of_mem (w := .long) hin.1 hin.2] at hpart
        rcases hpart with hpart | hpart
        · exact ⟨.simple t, by simp, htlow.le.trans hpart.1, hpart.2.trans hthigh.ge⟩
        · exact ⟨.simple u, by simp, hulow.le.trans hpart.1, hpart.2.trans huhigh.ge⟩

/-- Subtracting a constant. -/
theorem mem_subtract (vp : ValuePropagation) {a : VPSimple} (ha : a.Valid) {c : ℤ}
    (hc : a.width.Has c) :
    ∃ r vp', a.subtract vp (.const a.width c) a.width = .done (r, vp') ∧
      ∀ x ∈ a.values, a.width.Has (x - c) → x - c ∈ VPConstraint.allowed r := by
  obtain ⟨hmin, hmax⟩ := hc
  have hal := ha.low_le_high
  have h₁ := ha.min_le
  have h₂ := ha.le_max
  have hconst : (VPSimple.const a.width c).Valid := by
    refine ⟨hmin, le_rfl, hmax, fun hlow hhigh => ?_⟩
    have := a.width.minSigned_lt_maxSigned
    have : a.width.minSigned = a.width.maxSigned := hlow.symm.trans hhigh
    omega
  have hexact := VPSimple.exactResults_differences ha hconst rfl
  have hcall : a.subtract vp (.const a.width c) a.width =
      VPSimple.getRange vp a.width (bound a.width (a.getLow - c)) (bound a.width (a.getHigh - c)) := by
    rw [VPSimple.subtract, if_neg (by simp [VPSimple.width])]
    exact congrArg₂ (VPSimple.getRange vp a.width)
      (subWithOverflow_eq h₁ (by omega) hmin hmax) (subWithOverflow_eq (by omega) h₂ hmin hmax)
  have hdone : ∃ r vp', VPSimple.getRange vp a.width (bound a.width (a.getLow - c))
      (bound a.width (a.getHigh - c)) = .done (r, vp') ∧
        ∀ s ∈ VPSimple.differences a (.const a.width c), a.width.Has s →
          s ∈ VPConstraint.allowed r := by
    generalize a.width = w at *
    cases w with
    | short =>
      obtain ⟨r, hr, hall⟩ := narrowGetRange_contains (by decide) vp hexact
      exact ⟨r, vp, congrArg (Outcome.bind · fun r => .done (r, vp)) hr, hall⟩
    | int =>
      obtain ⟨r, hr, hall⟩ := narrowGetRange_contains (by decide) vp hexact
      exact ⟨r, vp, congrArg (Outcome.bind · fun r => .done (r, vp)) hr, hall⟩
    | long => exact longGetRange_contains vp hexact
  obtain ⟨r, vp', hr, hall⟩ := hdone
  exact ⟨r, vp', hcall.trans hr, fun x hx hin => hall _ ⟨x, hx, c, ⟨le_rfl, le_rfl⟩, rfl⟩ hin⟩

end Differences

/-! ### The bounds that are read -/

namespace VPConstraint

variable {v w : Width} {c : VPConstraint} {s : VPSimple} {x : ℤ}

theorem Valid.has (h : c.Valid w) (hx : x ∈ c.values) : w.Has x := by
  have hsimple {s : VPSimple} (hs : s.Valid) (hw : s.width = w) (hx : x ∈ s.values) : w.Has x := by
    have hmin := hs.min_le
    have hmax := hs.le_max
    rw [hw] at hmin hmax
    exact ⟨hmin.trans hx.1, hx.2.trans hmax⟩
  cases h with
  | simple hs hw => exact hsimple hs hw hx
  | merged hl =>
    obtain ⟨e, he, hx⟩ := hx
    obtain ⟨s, hs, rfl⟩ := List.mem_map.1 he
    exact hsimple (hl.valid s hs) (hl.width s hs) hx

theorem eq_of_asConstraint (h : c.asConstraint w = some s) : c = .simple s ∧ s.width = w := by
  cases c with
  | merged es => cases h
  | simple t =>
    rw [asConstraint] at h
    split_ifs at h with hw
    obtain rfl := Option.some.inj h
    exact ⟨rfl, hw⟩

theorem eq_of_asConst {n : ℤ} (h : c.asConst w = some n) : c = .simple (.const w n) := by
  cases c with
  | merged es => cases h
  | simple t =>
    cases t with
    | range w' low high overflow => cases h
    | const w' m =>
      rw [asConst] at h
      split_ifs at h with hw
      rw [hw, Option.some.inj h]

theorem Valid.width_eq (h : Valid w (.simple s)) : s.width = w := by
  cases h with
  | simple hs hw => exact hw

theorem Valid.asConstraint_other (h : c.Valid w) (hne : v ≠ w) : c.asConstraint v = none := by
  cases h with
  | simple hs hw => exact if_neg fun heq => hne (heq.symm.trans hw)
  | merged hl => rfl

/-- The accessors of another type know nothing. -/
theorem Valid.getLowAt_other (h : c.Valid w) (hne : v ≠ w) : c.getLowAt v = some v.minSigned := by
  have hsimple {s : VPSimple} (hw : s.width = w) : s.getLowAt v = v.minSigned :=
    if_neg fun heq => hne (heq.symm.trans hw)
  cases h with
  | simple hs hw => exact congrArg some (hsimple hw)
  | @merged l hl =>
    obtain ⟨s, l, rfl⟩ := List.exists_cons_of_length_pos (by have := hl.two_le; omega : 0 < l.length)
    exact congrArg some (hsimple (hl.width s (by simp)))

theorem Valid.getHighInt_long (h : c.Valid .long) : c.getHighInt = some Width.int.maxSigned := by
  have hsimple {s : VPSimple} (hw : s.width = .long) : s.getHighAt .int = Width.int.maxSigned :=
    if_neg fun heq => Width.noConfusion (heq.symm.trans hw)
  cases h with
  | simple hs hw => exact congrArg some (hsimple hw)
  | @merged l hl =>
    obtain ⟨l, s, rfl⟩ := List.eq_nil_or_concat' l |>.resolve_left
      (by rintro rfl; exact absurd hl.two_le (by simp))
    have hlast : ((l ++ [s]).map Entry.simple).getLast? = some (.simple s) := by simp
    show ((l ++ [s]).map Entry.simple).getLast?.bind _ = _
    rw [hlast]
    exact congrArg some (hsimple (hl.width s (by simp)))

end VPConstraint

/-- Nothing follows from the least number of the type. -/
theorem fromLowBound_min {R : VPRelation} (hR : R.Valid) :
    fromLowBound .int Width.int.minSigned R.increment = none := by
  obtain ⟨hlow, hhigh⟩ := hR
  rw [fromLowBound]
  split_ifs with hneg hwrapped
  · rfl
  · rfl
  · have hzero : R.increment = 0 := by
      by_contra hne
      have hwrap := Width.wrap_of_lt (w := .int) (x := Width.int.minSigned - R.increment)
        (by simp only [Width.minSigned, Width.maxSigned, Width.half] at *; omega) (by omega)
      simp only [Width.minSigned, Width.maxSigned, Width.half] at *
      omega
    rw [hzero]
    rfl

theorem fromHighBound_max {R : VPRelation} (hR : R.Valid) :
    fromHighBound .int Width.int.maxSigned R.increment = none := by
  obtain ⟨hlow, hhigh⟩ := hR
  rw [fromHighBound]
  split_ifs with hpos hwrapped
  · rfl
  · rfl
  · have hzero : R.increment = 0 := by
      by_contra hne
      have hwrap := Width.wrap_of_gt (w := .int) (x := Width.int.maxSigned - R.increment)
        (by omega) (by simp only [Width.minSigned, Width.maxSigned, Width.half] at *; omega)
      simp only [Width.minSigned, Width.maxSigned, Width.half] at *
      omega
    rw [hzero]
    rfl

/-! ## Soundness -/

namespace VPRelation

variable {R R₁ R₂ R₃ : VPRelation} {w : Width} {c : VPConstraint}

/-- A call gives a constraint for every value that the relation relates to one that is allowed. -/
def PropagatesSoundly (vp : ValuePropagation) (R : VPRelation) (w : Width) (c : VPConstraint) :
    Prop :=
  ∃ r vp', R.propagateAbsoluteConstraint vp c = .done (r, vp') ∧
    ∀ x y, w.Has x → w.Has y → w.Has (y + R.increment) → R.Holds x y → x ∈ c.values →
      y ∈ VPConstraint.allowed r

theorem lessThanOrEqual_sound (vp : ValuePropagation) (hR : R.Valid) (hw : w ≠ .short)
    (hc : c.Valid w) (hrelation : R.relation = .lessThanOrEqual) : R.PropagatesSoundly vp w c := by
  have hholds {x y : ℤ} (h : R.Holds x y) : x ≤ y + R.increment := by
    rw [Holds, hrelation] at h
    exact h
  rw [PropagatesSoundly, propagateAbsoluteConstraint, hrelation]
  dsimp only
  cases hlong : c.asConstraint .long with
  | some s =>
    obtain ⟨rfl, hsw⟩ := VPConstraint.eq_of_asConstraint hlong
    obtain rfl : w = .long := by
      by_contra hne
      rw [hc.asConstraint_other (Ne.symm hne)] at hlong
      cases hlong
    refine ⟨_, vp, rfl, fun x y _ _ hy hxy hx => ?_⟩
    exact mem_fromLowBound (hc.has ⟨le_rfl, hx.1.trans hx.2⟩) (hR.has hw) hy
      (hx.1.trans (hholds hxy))
  | none =>
    cases w with
    | short => exact absurd rfl hw
    | int =>
      obtain ⟨m, hm, hleast⟩ := hc.getLowAt_isLeast
      rw [show c.getLowInt = some m from hm]
      refine ⟨_, vp, rfl, fun x y _ _ hy hxy hx => ?_⟩
      exact mem_fromLowBound (hc.has hleast.1) (hR.has hw) hy ((hleast.2 hx).trans (hholds hxy))
    | long =>
      have hlow : c.getLowInt = some Width.int.minSigned := hc.getLowAt_other (by decide)
      rw [hlow]
      refine ⟨_, vp, rfl, fun x y _ _ _ _ _ => ?_⟩
      rw [fromLowBound_min hR]
      exact Set.mem_univ y

theorem greaterThanOrEqual_sound (vp : ValuePropagation) (hR : R.Valid) (hw : w ≠ .short)
    (hc : c.Valid w) (hrelation : R.relation = .greaterThanOrEqual) :
    R.PropagatesSoundly vp w c := by
  have hholds {x y : ℤ} (h : R.Holds x y) : y + R.increment ≤ x := by
    rw [Holds, hrelation] at h
    exact h
  rw [PropagatesSoundly, propagateAbsoluteConstraint, hrelation]
  dsimp only
  cases hlong : c.asConstraint .long with
  | some s =>
    obtain ⟨rfl, hsw⟩ := VPConstraint.eq_of_asConstraint hlong
    obtain rfl : w = .long := by
      by_contra hne
      rw [hc.asConstraint_other (Ne.symm hne)] at hlong
      cases hlong
    refine ⟨_, vp, rfl, fun x y _ _ hy hxy hx => ?_⟩
    exact mem_fromHighBound (hc.has ⟨hx.1.trans hx.2, le_rfl⟩) (hR.has hw) hy
      ((hholds hxy).trans hx.2)
  | none =>
    cases w with
    | short => exact absurd rfl hw
    | int =>
      obtain ⟨m, hm, hgreatest⟩ := hc.getHighAt_isGreatest fun h => Width.noConfusion h
      rw [show c.getHighInt = some m from hm]
      refine ⟨_, vp, rfl, fun x y _ _ hy hxy hx => ?_⟩
      exact mem_fromHighBound (hc.has hgreatest.1) (hR.has hw) hy
        ((hholds hxy).trans (hgreatest.2 hx))
    | long =>
      rw [hc.getHighInt_long]
      refine ⟨_, vp, rfl, fun x y _ _ _ _ _ => ?_⟩
      rw [fromHighBound_max hR]
      exact Set.mem_univ y

theorem equal_sound (vp : ValuePropagation) (hR : R.Valid) (hw : w ≠ .short) (hc : c.Valid w)
    (hrelation : R.relation = .equal) : R.PropagatesSoundly vp w c := by
  have hholds {x y : ℤ} (h : R.Holds x y) : y = x - R.increment := by
    rw [Holds, hrelation] at h
    exact (sub_eq_of_eq_add h).symm
  rw [PropagatesSoundly, propagateAbsoluteConstraint, hrelation]
  dsimp only
  split_ifs with hzero
  · refine ⟨some c, vp, rfl, fun x y _ _ _ hxy hx => ?_⟩
    rw [hholds hxy, hzero, sub_zero]
    exact hx
  cases hc with
  | merged hl => exact ⟨none, vp, rfl, fun _ _ _ _ _ _ _ => Set.mem_univ _⟩
  | @simple s hs hsw =>
    obtain ⟨r, vp', hcall, hall⟩ := mem_subtract vp hs (c := R.increment) (by
      rw [hsw]
      exact hR.has hw)
    rw [hsw] at hcall hall
    have hdone : ∃ r vp', (match (VPConstraint.simple s).asConstraint .long,
        (VPConstraint.simple s).asConstraint .int with
      | some s, _ => s.subtract vp (.const .long R.increment) .long
      | none, some s => s.subtract vp (.const .int R.increment) .int
      | none, none => .done (none, vp)) = .done (r, vp') ∧
        ∀ x ∈ s.values, w.Has (x - R.increment) → x - R.increment ∈ VPConstraint.allowed r := by
      refine ⟨r, vp', ?_, hall⟩
      cases w with
      | short => exact absurd rfl hw
      | int =>
        rw [show (VPConstraint.simple s).asConstraint .long = none from
          if_neg fun h => Width.noConfusion (h.symm.trans hsw),
          show (VPConstraint.simple s).asConstraint .int = some s from if_pos hsw]
        exact hcall
      | long =>
        rw [show (VPConstraint.simple s).asConstraint .long = some s from if_pos hsw]
        exact hcall
    obtain ⟨r, vp', hcall, hall⟩ := hdone
    refine ⟨r, vp', hcall, fun x y _ hy _ hxy hx => ?_⟩
    rw [hholds hxy] at hy ⊢
    exact hall x hx hy

theorem notEqual_sound (vp : ValuePropagation) (hR : R.Valid) (hw : w ≠ .short) (hc : c.Valid w)
    (hrelation : R.relation = .notEqual) : R.PropagatesSoundly vp w c := by
  have hholds {x y : ℤ} (h : R.Holds x y) : x ≠ y + R.increment := by
    rw [Holds, hrelation] at h
    exact h
  have hincr := hR.has hw
  have hconst {v : ℤ} (hv : w.Has v) : ∃ r,
      (withoutValue w (w.wrap (v - R.increment))).bind (fun r => Outcome.done (r, vp)) =
          .done (r, vp) ∧ ∀ y, w.Has y → w.Has (y + R.increment) → v ≠ y + R.increment →
            y ∈ VPConstraint.allowed r := by
    obtain ⟨r, hr, hall⟩ := withoutValue_spec (w.wrap_mem (v - R.increment))
    refine ⟨r, by rw [hr]; rfl, fun y hy hright hne => hall y hy fun heq => ?_⟩
    obtain ⟨hvmin, hvmax⟩ := hv
    obtain ⟨himin, himax⟩ := hincr
    obtain ⟨hrmin, hrmax⟩ := hright
    have hhalf := w.half_pos
    by_cases hlow : v - R.increment < w.minSigned
    · rw [Width.wrap_of_lt (by simp only [Width.minSigned, Width.maxSigned] at *; omega) hlow] at heq
      simp only [Width.minSigned, Width.maxSigned] at *
      omega
    by_cases hhigh : w.maxSigned < v - R.increment
    · rw [Width.wrap_of_gt hhigh (by simp only [Width.minSigned, Width.maxSigned] at *; omega)] at heq
      simp only [Width.minSigned, Width.maxSigned] at *
      omega
    · rw [Width.wrap_of_mem (by omega) (by omega)] at heq
      omega
  have hfinish {v : ℤ} (hc : (VPConstraint.simple (.const w v)).Valid w) : ∃ r vp',
      (withoutValue w (w.wrap (v - R.increment))).bind (fun r => Outcome.done (r, vp)) =
          .done (r, vp') ∧ ∀ x y, w.Has x → w.Has y → w.Has (y + R.increment) → R.Holds x y →
            x ∈ (VPConstraint.simple (.const w v)).values → y ∈ VPConstraint.allowed r := by
    obtain ⟨r, hr, hall⟩ := hconst (hc.has ⟨le_rfl, le_rfl⟩)
    refine ⟨r, vp, hr, fun x y _ hy hright hxy hx => hall y hy hright ?_⟩
    have hxv : x = v := le_antisymm hx.2 hx.1
    exact hxv ▸ hholds hxy
  rw [PropagatesSoundly, propagateAbsoluteConstraint, hrelation]
  dsimp only
  cases hlong : c.asConst .long with
  | some v =>
    obtain rfl := VPConstraint.eq_of_asConst hlong
    obtain rfl : Width.long = w := hc.width_eq
    exact hfinish hc
  | none =>
    cases hint : c.asConst .int with
    | some v =>
      obtain rfl := VPConstraint.eq_of_asConst hint
      obtain rfl : Width.int = w := hc.width_eq
      exact hfinish hc
    | none => exact ⟨none, vp, rfl, fun _ _ _ _ _ _ _ => Set.mem_univ _⟩

theorem propagateAbsoluteConstraint_spec (vp : ValuePropagation) (hR : R.Valid) (hw : w ≠ .short)
    (hc : c.Valid w) : R.PropagatesSoundly vp w c := by
  cases hrelation : R.relation with
  | lessThanOrEqual => exact lessThanOrEqual_sound vp hR hw hc hrelation
  | greaterThanOrEqual => exact greaterThanOrEqual_sound vp hR hw hc hrelation
  | equal => exact equal_sound vp hR hw hc hrelation
  | notEqual => exact notEqual_sound vp hR hw hc hrelation

/-- The increment of a new relation is the exact difference. -/
theorem newIncr_eq {n : ℤ} (h₁ : R₁.Valid) (h₂ : R₂.Valid) (h : R₁.newIncr R₂ = some n) :
    n = R₂.increment - R₁.increment := by
  obtain ⟨h₁low, h₁high⟩ := h₁
  obtain ⟨h₂low, h₂high⟩ := h₂
  have hlow (hlt : R₂.increment - R₁.increment < Width.int.minSigned) :=
    Width.wrap_of_lt (w := .int)
      (by simp only [Width.minSigned, Width.maxSigned, Width.half] at *; omega) hlt
  have hhigh (hlt : Width.int.maxSigned < R₂.increment - R₁.increment) :=
    Width.wrap_of_gt (w := .int) hlt
      (by simp only [Width.minSigned, Width.maxSigned, Width.half] at *; omega)
  have hin (hge : ¬R₂.increment - R₁.increment < Width.int.minSigned)
      (hle : ¬Width.int.maxSigned < R₂.increment - R₁.increment) :=
    Width.wrap_of_mem (w := .int) (not_lt.1 hge) (not_lt.1 hle)
  rw [newIncr] at h
  split_ifs at h <;> obtain rfl := Option.some.inj h
  all_goals
    by_cases hl : R₂.increment - R₁.increment < Width.int.minSigned
    · have := hlow hl
      simp only [Width.minSigned, Width.maxSigned, Width.half] at *
      omega
    by_cases hh : Width.int.maxSigned < R₂.increment - R₁.increment
    · have := hhigh hh
      simp only [Width.minSigned, Width.maxSigned, Width.half] at *
      omega
    · exact hin hl hh

theorem propagateRelativeConstraint_spec (h₁ : R₁.Valid) (h₂ : R₂.Valid) {x y z : ℤ}
    (hxy : R₁.Holds x y) (hxz : R₂.Holds x z)
    (h : R₁.propagateRelativeConstraint R₂ = some R₃) : R₃.Holds y z := by
  rw [Holds] at hxy hxz
  rw [propagateRelativeConstraint] at h
  -- the pairs from which nothing follows are closed at once
  cases hr₁ : R₁.relation <;> cases hr₂ : R₂.relation <;>
    simp only [hr₁, hr₂, ne_eq, reduceCtorEq, not_true_eq_false, not_false_eq_true, and_true,
      and_false, and_self, if_true, if_false, Option.map_eq_some_iff] at h hxy hxz
  all_goals
    obtain ⟨n, hn, rfl⟩ := h
    have := newIncr_eq h₁ h₂ hn
    simp only [Holds]
    omega

/-- Both ways of propagating are sound, for values of 32 and of 64 bits and for all increments. -/
theorem propagation_sound (R₁ R₂ : VPRelation) (h₁ : R₁.Valid) (h₂ : R₂.Valid) :
    (∀ vp w c, w ≠ .short → c.Valid w → R₁.PropagatesSoundly vp w c) ∧
      ∀ R₃ x y z, R₁.Holds x y → R₂.Holds x z →
        R₁.propagateRelativeConstraint R₂ = some R₃ → R₃.Holds y z :=
  ⟨fun vp _ _ hw hc => propagateAbsoluteConstraint_spec vp h₁ hw hc,
    fun _ _ _ _ hxy hxz h => propagateRelativeConstraint_spec h₁ h₂ hxy hxz h⟩

/-- From `x ≤ y + 3` and `x ≥ z + 5` follows `y ≥ z + 2`. -/
theorem propagation_sound_two :
    PropagatesSoundly ⟨[], fun _ => false⟩ ⟨.lessThanOrEqual, 3, false⟩ .int
        (.simple (.range .int 5 9 .no)) ∧
      Holds ⟨.greaterThanOrEqual, 2, false⟩ 4 1 :=
  have h := propagation_sound ⟨.lessThanOrEqual, 3, false⟩ ⟨.greaterThanOrEqual, 5, false⟩
    ⟨by decide, by decide⟩ ⟨by decide, by decide⟩
  ⟨h.1 _ _ _ (by decide) (.simple (by decide) rfl),
    h.2 _ 6 4 1 (show (6 : ℤ) ≤ 4 + 3 by decide) (show (6 : ℤ) ≥ 1 + 5 by decide) (by decide)⟩

end VPRelation

end OMR.Compiler
