import OMR.Compiler.VPConstraint
import Mathlib.Data.Int.Bitwise

/-!
# Adding and subtracting numeric constraints

`add`, `subtract` and `getRange` of the three widths. The bounds of the result
are computed with a flag that says whether they left the type, and `getRange`
turns the two bounds and the two flags into a constraint. At 64 bits the flag
`TR_yes` that is meant for `canOverflow` is passed in the place of `powerOfTwo`,
so that here the mark `_isPowerOfTwo` of the ranges matters. It belongs to the
shared object of the hash table, and the constructor does not set it; the table
and the contents of fresh memory are therefore part of the state.
-/

namespace OMR.Compiler

open OMR.Lib

/-- A `VPLongRange` of the hash table. -/
structure LongRangeObject where
  low : ℤ
  high : ℤ
  overflow : YesNoMaybe
  isPowerOfTwo : Bool
deriving DecidableEq, Repr

/-- What `OMR::ValuePropagation` knows of 64-bit ranges: the objects of
`_constraintsHashTable`, newest first, and for the objects to come the contents
of the memory where `_isPowerOfTwo` will be. -/
structure ValuePropagation where
  longRanges : List LongRangeObject
  memory : ℕ → Bool

namespace ValuePropagation

/-- The mark of the object with the given bounds and flag, if there is one. -/
def lookup (vp : ValuePropagation) (low high : ℤ) (overflow : YesNoMaybe) : Option Bool :=
  (vp.longRanges.find? fun o => o.low = low ∧ o.high = high ∧ o.overflow = overflow).map
    LongRangeObject.isPowerOfTwo

/-- A new object, with `setIsPowerOfTwo` or with what is in its memory. -/
def addLongRange (vp : ValuePropagation) (low high : ℤ) (overflow : YesNoMaybe)
    (powerOfTwo : Bool) : ValuePropagation :=
  { vp with longRanges :=
      ⟨low, high, overflow, powerOfTwo || vp.memory vp.longRanges.length⟩ :: vp.longRanges }

/-- `getIsPowerOfTwo` of a constraint; only 64-bit ranges have the mark. -/
def getIsPowerOfTwo (vp : ValuePropagation) : VPSimple → Bool
  | .range .long low high overflow => (vp.lookup low high overflow).getD false
  | _ => false

end ValuePropagation

/-- `VPLongRange::create` with the hash table: an object with the same bounds and
the same overflow flag is taken as it is. -/
def VPLongRange.createIn (vp : ValuePropagation) (low high : ℤ) (powerOfTwo : Bool)
    (canOverflow : YesNoMaybe) : Option VPSimple × ValuePropagation :=
  match VPLongRange.create low high powerOfTwo canOverflow with
  | some (.range w l h o) =>
    match vp.lookup l h o with
    | some _ => (some (.range w l h o), vp)
    | none => (some (.range w l h o), vp.addLongRange l h o powerOfTwo)
  | r => (r, vp)

/-- `addWithOverflow`. -/
def addWithOverflow (w : Width) (a b : ℤ) : ℤ × Bool :=
  let sum := w.wrap (a + b)
  (sum, decide (Int.xor a b ≥ 0 ∧ Int.xor a sum < 0))

/-- `subWithOverflow`. -/
def subWithOverflow (w : Width) (a b : ℤ) : ℤ × Bool :=
  let diff := w.wrap (a - b)
  (diff, decide (Int.xor a b < 0 ∧ Int.xor a diff < 0))

/-- The common part of `VPShortConstraint::getRange` and
`VPIntConstraint::getRange`. -/
def narrowGetRange (w : Width) (low high : ℤ) (lowCanOverflow highCanOverflow : Bool) :
    Outcome (Option VPConstraint) :=
  if lowCanOverflow && highCanOverflow then
    if Int.xor high low < 0 then .done none
    else .done ((rangeOrConst w low high .yes).map .simple)
  else if lowCanOverflow || highCanOverflow then
    if high ≥ low then .done none
    else
      let range1 := rangeOrConst w w.minSigned high .yes
      let range2 := rangeOrConst w low w.maxSigned .yes
      (VPMergedConstraints.create [range1.map .simple, range2.map .simple]).bind fun c =>
        .done (some c)
  else .done ((rangeOrConst w low high .no).map .simple)

def VPShortConstraint.getRange := narrowGetRange .short

def VPIntConstraint.getRange := narrowGetRange .int

/-- `VPLongConstraint::getRange`: the flag of the overflow lands in the parameter
`powerOfTwo`. -/
def VPLongConstraint.getRange (vp : ValuePropagation) (low high : ℤ)
    (lowCanOverflow highCanOverflow : Bool) : Outcome (Option VPConstraint × ValuePropagation) :=
  if lowCanOverflow && highCanOverflow then
    if Int.xor high low < 0 then .done (none, vp)
    else
      let (r, vp) := VPLongRange.createIn vp low high true .no
      .done (r.map .simple, vp)
  else if lowCanOverflow || highCanOverflow then
    if high ≥ low then .done (none, vp)
    else
      let (range1, vp) := VPLongRange.createIn vp Width.long.minSigned high true .no
      let (range2, vp) := VPLongRange.createIn vp low Width.long.maxSigned true .no
      (VPMergedConstraints.create [range1.map .simple, range2.map .simple]).bind fun c =>
        .done (some c, vp)
  else
    let (r, vp) := VPLongRange.createIn vp low high false .no
    .done (r.map .simple, vp)

namespace VPSimple

/-- The `getRange` of a width. -/
def getRange (vp : ValuePropagation) (w : Width) (low high : ℤ × Bool) :
    Outcome (Option VPConstraint × ValuePropagation) :=
  match w with
  | .short => (VPShortConstraint.getRange low.1 high.1 low.2 high.2).bind fun r => .done (r, vp)
  | .int => (VPIntConstraint.getRange low.1 high.1 low.2 high.2).bind fun r => .done (r, vp)
  | .long => VPLongConstraint.getRange vp low.1 high.1 low.2 high.2

/-- `add` of the three simple classes for an operation of type `dt`. -/
def add (vp : ValuePropagation) (this other : VPSimple) (dt : Width) :
    Outcome (Option VPConstraint × ValuePropagation) :=
  if other.width ≠ this.width ∨ dt ≠ this.width then .done (none, vp)
  else getRange vp this.width (addWithOverflow this.width this.getLow other.getLow)
    (addWithOverflow this.width this.getHigh other.getHigh)

/-- `subtract` of the three simple classes for an operation of type `dt`. -/
def subtract (vp : ValuePropagation) (this other : VPSimple) (dt : Width) :
    Outcome (Option VPConstraint × ValuePropagation) :=
  if other.width ≠ this.width ∨ dt ≠ this.width then .done (none, vp)
  else getRange vp this.width (subWithOverflow this.width this.getLow other.getHigh)
    (subWithOverflow this.width this.getHigh other.getLow)

end VPSimple

/-- The virtual function `canOverflow`. -/
def VPConstraint.canOverflow : VPConstraint → YesNoMaybe
  | .simple s => s.canOverflow
  | .merged _ => .maybe

/-- The constants and ranges of a result. -/
def VPConstraint.parts : Option VPConstraint → List VPSimple
  | none => []
  | some (.simple s) => [s]
  | some (.merged es) => es.flatMap fun
      | .simple s => [s]
      | .list l => l

/-- What is asked of the result `r` of an operation whose exact results are `S`,
with the hash table `vp` after the call: the wrapped results are allowed, a
constraint that says it cannot overflow does not, and only powers of two are
marked so. -/
structure ArithSound (w : Width) (vp : ValuePropagation) (S : Set ℤ) (r : Option VPConstraint) :
    Prop where
  contains : ∀ s ∈ S, w.wrap s ∈ VPConstraint.allowed r
  overflow : ∀ c, r = some c → c.canOverflow = .no → ∀ s ∈ S, w.minSigned ≤ s ∧ s ≤ w.maxSigned
  marks : ∀ t ∈ VPConstraint.parts r, vp.getIsPowerOfTwo t = true → ∀ v ∈ t.values, ∃ n : ℕ, v = 2 ^ n

/-- A result with nothing known is right. -/
theorem ArithSound.null (w : Width) (vp : ValuePropagation) (S : Set ℤ) : ArithSound w vp S none :=
  ⟨fun _ _ => Set.mem_univ _, by simp, by simp [VPConstraint.parts]⟩

/-! ## Bounds and flags -/

theorem xor_neg_iff (a b : ℤ) : Int.xor a b < 0 ↔ ¬ (0 ≤ a ↔ 0 ≤ b) := by
  cases a <;> cases b <;> simp [Int.xor]

/-- A bound as the two functions with overflow give it. -/
def bound (w : Width) (x : ℤ) : ℤ × Bool := (w.wrap x, decide (x < w.minSigned ∨ w.maxSigned < x))

section Bounds

variable {w : Width} {a b : ℤ}

theorem bound_inside (hlow : w.minSigned ≤ a) (hhigh : a ≤ w.maxSigned) : bound w a = (a, false) := by
  rw [bound, Width.wrap_of_mem hlow hhigh]
  exact Prod.ext rfl (decide_eq_false (by omega))

theorem bound_outside (h : a < w.minSigned ∨ w.maxSigned < a) : bound w a = (w.wrap a, true) :=
  Prod.ext rfl (decide_eq_true h)

theorem addWithOverflow_eq (ha : w.minSigned ≤ a) (ha' : a ≤ w.maxSigned) (hb : w.minSigned ≤ b)
    (hb' : b ≤ w.maxSigned) : addWithOverflow w a b = bound w (a + b) := by
  rw [addWithOverflow, bound]
  refine Prod.ext rfl (decide_eq_decide.2 ?_)
  have hhalf := w.half_pos
  have hnonneg : Int.xor a b ≥ 0 ↔ (0 ≤ a ↔ 0 ≤ b) := by
    rw [ge_iff_le, ← not_lt, xor_neg_iff, not_not]
  rw [hnonneg, xor_neg_iff]
  by_cases hlow : a + b < w.minSigned
  · rw [Width.wrap_of_lt (by simp only [Width.minSigned] at *; omega) hlow]
    simp only [Width.minSigned, Width.maxSigned] at *
    omega
  · by_cases hhigh : w.maxSigned < a + b
    · rw [Width.wrap_of_gt hhigh (by simp only [Width.maxSigned] at *; omega)]
      simp only [Width.minSigned, Width.maxSigned] at *
      omega
    · rw [Width.wrap_of_mem (by omega) (by omega)]
      simp only [Width.minSigned, Width.maxSigned] at *
      omega

theorem subWithOverflow_eq (ha : w.minSigned ≤ a) (ha' : a ≤ w.maxSigned) (hb : w.minSigned ≤ b)
    (hb' : b ≤ w.maxSigned) : subWithOverflow w a b = bound w (a - b) := by
  rw [subWithOverflow, bound]
  refine Prod.ext rfl (decide_eq_decide.2 ?_)
  have hhalf := w.half_pos
  rw [xor_neg_iff, xor_neg_iff]
  by_cases hlow : a - b < w.minSigned
  · rw [Width.wrap_of_lt (by simp only [Width.minSigned, Width.maxSigned] at *; omega) hlow]
    simp only [Width.minSigned, Width.maxSigned] at *
    omega
  · by_cases hhigh : w.maxSigned < a - b
    · rw [Width.wrap_of_gt hhigh (by simp only [Width.minSigned, Width.maxSigned] at *; omega)]
      simp only [Width.minSigned, Width.maxSigned] at *
      omega
    · rw [Width.wrap_of_mem (by omega) (by omega)]
      simp only [Width.minSigned, Width.maxSigned] at *
      omega

end Bounds

/-- The exact results of an operation and their extremes, which lie at most one
period outside the type. -/
structure ExactResults (w : Width) (S : Set ℤ) (L H : ℤ) : Prop where
  low_mem : L ∈ S
  high_mem : H ∈ S
  between : ∀ s ∈ S, L ≤ s ∧ s ≤ H
  ge : -(2 * w.half) ≤ L
  lt : H < 2 * w.half

/-- How two extremes can lie to the type: inside; on the same side outside; on
different sides outside; or one inside and one outside. -/
inductive Position (w : Width) (L H : ℤ) : Prop
  | inside (hL : w.minSigned ≤ L) (hH : H ≤ w.maxSigned)
  | sameSide (h : H < w.minSigned ∨ w.maxSigned < L)
  | around (hL : L < w.minSigned) (hH : w.maxSigned < H)
  | oneOut (h : (L < w.minSigned ∧ w.minSigned ≤ H ∧ H ≤ w.maxSigned) ∨
      (w.minSigned ≤ L ∧ L ≤ w.maxSigned ∧ w.maxSigned < H))

section Cases

variable {w : Width} {S : Set ℤ} {L H : ℤ}

theorem ExactResults.le (h : ExactResults w S L H) : L ≤ H := (h.between L h.low_mem).2

theorem position (w : Width) (L H : ℤ) : Position w L H := by
  by_cases hL : L < w.minSigned
  · by_cases hH : H < w.minSigned
    · exact .sameSide (Or.inl hH)
    · by_cases hH' : w.maxSigned < H
      · exact .around hL hH'
      · exact .oneOut (Or.inl ⟨hL, by omega, by omega⟩)
  · by_cases hL' : w.maxSigned < L
    · exact .sameSide (Or.inr hL')
    · by_cases hH : w.maxSigned < H
      · exact .oneOut (Or.inr ⟨by omega, by omega, hH⟩)
      · exact .inside (by omega) (by omega)

/-- The wrapped extremes. -/
theorem ExactResults.wrap_eq (h : ExactResults w S L H) {s : ℤ} (hs : L ≤ s ∧ s ≤ H) :
    (s < w.minSigned ∧ w.wrap s = s + 2 * w.half) ∨
      (w.minSigned ≤ s ∧ s ≤ w.maxSigned ∧ w.wrap s = s) ∨
      (w.maxSigned < s ∧ w.wrap s = s - 2 * w.half) := by
  have hge := h.ge
  have hlt := h.lt
  by_cases hlow : s < w.minSigned
  · exact Or.inl ⟨hlow, Width.wrap_of_lt (by omega) hlow⟩
  · by_cases hhigh : w.maxSigned < s
    · exact Or.inr (Or.inr ⟨hhigh, Width.wrap_of_gt hhigh (by omega)⟩)
    · exact Or.inr (Or.inl ⟨by omega, by omega, Width.wrap_of_mem (by omega) (by omega)⟩)

/-- Extremes on the same side wrap to the same sign, extremes on different sides
to different signs. -/
theorem ExactResults.xor_wrap (h : ExactResults w S L H) :
    ((H < w.minSigned ∨ w.maxSigned < L) → ¬ Int.xor (w.wrap H) (w.wrap L) < 0) ∧
      (L < w.minSigned → w.maxSigned < H → Int.xor (w.wrap H) (w.wrap L) < 0) := by
  have hhalf := w.half_pos
  have hge := h.ge
  have hlt := h.lt
  have hle := h.le
  have hwL := h.wrap_eq ⟨le_rfl, hle⟩
  have hwH := h.wrap_eq ⟨hle, le_rfl⟩
  rw [xor_neg_iff]
  simp only [Width.minSigned, Width.maxSigned] at *
  constructor
  · intro hside
    omega
  · intro hL hH
    omega

/-- The values of the interval between the wrapped extremes, when both lie on one
side, are the wrapped results. -/
theorem ExactResults.wrap_mem_sameSide (h : ExactResults w S L H)
    (hside : H < w.minSigned ∨ w.maxSigned < L) {s : ℤ} (hs : s ∈ S) :
    w.wrap L ≤ w.wrap s ∧ w.wrap s ≤ w.wrap H := by
  have hb := h.between s hs
  have hlt := w.minSigned_lt_maxSigned
  have hwL := h.wrap_eq ⟨le_rfl, h.le⟩
  have hwH := h.wrap_eq ⟨h.le, le_rfl⟩
  have hws := h.wrap_eq hb
  omega

/-- With one extreme outside, a wrapped result lies above the wrapped lower
extreme or below the wrapped upper one. -/
theorem ExactResults.wrap_mem_oneOut (h : ExactResults w S L H)
    (hout : (L < w.minSigned ∧ w.minSigned ≤ H ∧ H ≤ w.maxSigned) ∨
      (w.minSigned ≤ L ∧ L ≤ w.maxSigned ∧ w.maxSigned < H)) {s : ℤ} (hs : s ∈ S) :
    (w.minSigned ≤ w.wrap s ∧ w.wrap s ≤ w.wrap H) ∨
      (w.wrap L ≤ w.wrap s ∧ w.wrap s ≤ w.maxSigned) := by
  have hb := h.between s hs
  have hmem := w.wrap_mem s
  have hlt := w.minSigned_lt_maxSigned
  have hwL := h.wrap_eq ⟨le_rfl, h.le⟩
  have hwH := h.wrap_eq ⟨h.le, le_rfl⟩
  have hws := h.wrap_eq hb
  omega

/-- Exactly one of the two flags is set. -/
theorem oneOut_flags (hout : (L < w.minSigned ∧ w.minSigned ≤ H ∧ H ≤ w.maxSigned) ∨
      (w.minSigned ≤ L ∧ L ≤ w.maxSigned ∧ w.maxSigned < H)) :
    ((bound w L).2 && (bound w H).2) = false ∧ ((bound w L).2 || (bound w H).2) = true := by
  have hlt := w.minSigned_lt_maxSigned
  simp only [bound, Bool.and_eq_false_iff, Bool.or_eq_true, decide_eq_false_iff_not,
    decide_eq_true_eq]
  omega

/-- The wrapped extremes coincide only when the extremes do. -/
theorem ExactResults.wrap_eq_wrap (h : ExactResults w S L H)
    (hside : H < w.minSigned ∨ w.maxSigned < L) : w.wrap L = w.wrap H ↔ L = H := by
  have hlt := w.minSigned_lt_maxSigned
  have hle := h.le
  have hwL := h.wrap_eq ⟨le_rfl, hle⟩
  have hwH := h.wrap_eq ⟨hle, le_rfl⟩
  omega

end Cases

/-! ## The result at 16 and 32 bits -/

section Narrow

variable {w : Width} {S : Set ℤ} {L H : ℤ}

theorem ValuePropagation.getIsPowerOfTwo_eq_false (vp : ValuePropagation) {t : VPSimple}
    (h : t.width ≠ .long) : vp.getIsPowerOfTwo t = false := by
  cases t with
  | const w v => rfl
  | range w low high o =>
    cases w with
    | short => rfl
    | int => rfl
    | long => exact absurd rfl h

theorem VPConstraint.mem_allowed_simple {r : Option VPSimple} {low high x : ℤ}
    (hr : ∀ t, r = some t → t.getLow = low ∧ t.getHigh = high) (hx : low ≤ x ∧ x ≤ high) :
    x ∈ allowed (r.map .simple) := by
  cases r with
  | none => exact Set.mem_univ x
  | some t =>
    obtain ⟨hlow, hhigh⟩ := hr t rfl
    show t.getLow ≤ x ∧ x ≤ t.getHigh
    rw [hlow, hhigh]
    exact hx

/-- The condition for the 16-bit and the 32-bit operations: no constant that is
the result of an overflow. -/
def NarrowFine (w : Width) (L H : ℤ) : Prop := ¬ (L = H ∧ (L < w.minSigned ∨ w.maxSigned < L))

instance (w : Width) (L H : ℤ) : Decidable (NarrowFine w L H) := inferInstanceAs (Decidable (¬ _))

theorem narrowGetRange_sound_iff (hw : w ≠ .long) (vp : ValuePropagation)
    (h : ExactResults w S L H) :
    ∃ r, narrowGetRange w (bound w L).1 (bound w H).1 (bound w L).2 (bound w H).2 = .done r ∧
      (ArithSound w vp S r ↔ NarrowFine w L H) := by
  have hle := h.le
  have hminmax := w.minSigned_lt_maxSigned
  rw [NarrowFine]
  cases position w L H with
  | inside hL hH =>
    rw [bound_inside hL (by omega), bound_inside (by omega) hH]
    refine ⟨_, rfl, iff_of_true ⟨fun s hs => ?_, fun c _ _ s hs => ?_, fun t ht hmark => ?_⟩ (by omega)⟩
    · have hs' := h.between s hs
      rw [Width.wrap_of_mem (by omega) (by omega)]
      exact VPConstraint.mem_allowed_simple
        (fun t ht => ⟨(rangeOrConst_some ht).2.1, (rangeOrConst_some ht).2.2.1⟩) hs'
    · have hs' := h.between s hs
      omega
    · cases hr : rangeOrConst w L H .no with
      | none => simp [hr, VPConstraint.parts] at ht
      | some u =>
        have hu : t = u := by simpa [hr, VPConstraint.parts] using ht
        rw [hu, vp.getIsPowerOfTwo_eq_false (by rw [(rangeOrConst_some hr).1]; exact hw)] at hmark
        cases hmark
  | sameSide hside =>
    rw [bound_outside (by omega), bound_outside (by omega), narrowGetRange]
    simp only [Bool.and_self, if_true, if_neg (h.xor_wrap.1 hside)]
    refine ⟨_, rfl, ?_⟩
    cases hr : rangeOrConst w (w.wrap L) (w.wrap H) .yes with
    | none =>
      refine iff_of_true (ArithSound.null _ _ _) ?_
      rintro ⟨rfl, -⟩
      rw [rangeOrConst] at hr
      split_ifs at hr with hfull
      omega
    | some t =>
      obtain ⟨htw, htlow, hthigh, htrange⟩ := rangeOrConst_some hr
      constructor
      · rintro hsound ⟨heq, hout⟩
        have hno : (VPConstraint.simple t).canOverflow = .no := by
          rw [rangeOrConst] at hr
          split_ifs at hr with hfull hsame
          · obtain rfl := Option.some.inj hr
            rfl
          · exact absurd (congrArg w.wrap heq) hsame
        have := hsound.overflow _ rfl hno L h.low_mem
        omega
      · intro hfine
        have hne : L ≠ H := fun heq => hfine ⟨heq, by omega⟩
        have hyes : t.canOverflow = .yes := by
          rw [htrange fun heq => hne ((h.wrap_eq_wrap hside).1 heq)]
          rfl
        refine ⟨fun s hs => ?_, fun c hc hno => ?_, fun u hu hmark => ?_⟩
        · exact VPConstraint.mem_allowed_simple (fun u hu => by
            obtain rfl := Option.some.inj hu
            exact ⟨htlow, hthigh⟩) (h.wrap_mem_sameSide hside hs)
        · obtain rfl := Option.some.inj hc
          have : t.canOverflow = .no := hno
          rw [hyes] at this
          cases this
        · have hu : u = t := by simpa [VPConstraint.parts] using hu
          rw [hu, vp.getIsPowerOfTwo_eq_false (by rw [htw]; exact hw)] at hmark
          cases hmark
  | around hL hH =>
    rw [bound_outside (Or.inl hL), bound_outside (Or.inr hH), narrowGetRange]
    simp only [Bool.and_self, if_true, if_pos (h.xor_wrap.2 hL hH)]
    exact ⟨none, rfl, iff_of_true (ArithSound.null _ _ _) (by omega)⟩
  | oneOut hout =>
    have hflags := oneOut_flags hout
    show ∃ r, narrowGetRange w (w.wrap L) (w.wrap H) (bound w L).2 (bound w H).2 = .done r ∧ _
    rw [narrowGetRange, hflags.1, hflags.2]
    simp only [Bool.false_eq_true, if_false, if_true]
    by_cases hge : w.wrap H ≥ w.wrap L
    · exact ⟨none, if_pos hge, iff_of_true (ArithSound.null _ _ _) (by omega)⟩
    · simp only [if_neg hge]
      have hmL := w.wrap_mem L
      have hmH := w.wrap_mem H
      cases h₁ : rangeOrConst w w.minSigned (w.wrap H) .yes with
      | none =>
        rw [rangeOrConst] at h₁
        split_ifs at h₁
        omega
      | some t =>
        cases h₂ : rangeOrConst w (w.wrap L) w.maxSigned .yes with
        | none =>
          rw [rangeOrConst] at h₂
          split_ifs at h₂
          omega
        | some u =>
          obtain ⟨htw, htlow, hthigh, -⟩ := rangeOrConst_some h₁
          obtain ⟨huw, hulow, huhigh, -⟩ := rangeOrConst_some h₂
          refine ⟨some (.merged [.simple t, .simple u]), rfl,
            iff_of_true ⟨fun s hs => ?_, fun c hc hno => ?_, fun v hv hmark => ?_⟩ (by omega)⟩
          · rcases h.wrap_mem_oneOut hout hs with hs | hs
            · exact ⟨.simple t, by simp, htlow.le.trans hs.1, hs.2.trans hthigh.ge⟩
            · exact ⟨.simple u, by simp, hulow.le.trans hs.1, hs.2.trans huhigh.ge⟩
          · obtain rfl := Option.some.inj hc
            cases hno
          · have hv : v = t ∨ v = u := by simpa [VPConstraint.parts] using hv
            have hvw : v.width ≠ .long := by
              rcases hv with rfl | rfl
              · rw [htw]
                exact hw
              · rw [huw]
                exact hw
            rw [vp.getIsPowerOfTwo_eq_false hvw] at hmark
            cases hmark

end Narrow

/-! ## The result at 64 bits -/

section Long

variable {vp : ValuePropagation} {S : Set ℤ} {L H low high : ℤ} {powerOfTwo : Bool}

/-- Only the range from 1 to 2 holds nothing but powers of two. -/
theorem forall_powerOfTwo_iff (hlt : low < high) :
    (∀ v, low ≤ v → v ≤ high → ∃ n : ℕ, v = 2 ^ n) ↔ low = 1 ∧ high = 2 := by
  constructor
  · intro h
    obtain ⟨n, hn⟩ := h low le_rfl hlt.le
    obtain ⟨m, hm⟩ := h (low + 1) (by omega) (by omega)
    -- two consecutive powers of two: the even one is not the first
    have hlow : low = 1 := by
      cases n with
      | zero => simpa using hn
      | succ n =>
        cases m with
        | zero =>
          have : (0 : ℤ) < 2 ^ (n + 1) := by positivity
          rw [pow_zero] at hm
          omega
        | succ m =>
          rw [pow_succ] at hn hm
          omega
    refine ⟨hlow, ?_⟩
    by_contra hne
    obtain ⟨k, hk⟩ := h 3 (by omega) (by omega)
    match k, hk with
    | 0, hk => norm_num at hk
    | 1, hk => norm_num at hk
    | k + 2, hk =>
      rw [pow_succ] at hk
      omega
  · rintro ⟨rfl, rfl⟩ v h₁ h₂
    rcases (by omega : v = 1 ∨ v = 2) with rfl | rfl
    · exact ⟨0, rfl⟩
    · exact ⟨1, rfl⟩

theorem VPLongRange.create_some {o : YesNoMaybe} {t : VPSimple}
    (h : VPLongRange.create low high powerOfTwo o = some t) :
    t.getLow = low ∧ t.getHigh = high ∧ (low = high → t = .const .long low) ∧
      (low ≠ high → t = .range .long low high o) := by
  rw [VPLongRange.create] at h
  split_ifs at h with hfull heq
  · obtain rfl := Option.some.inj h
    exact ⟨rfl, heq, fun _ => rfl, fun hne => absurd heq hne⟩
  · obtain rfl := Option.some.inj h
    exact ⟨rfl, rfl, fun h => absurd h heq, fun _ => rfl⟩

theorem VPLongRange.create_powerOfTwo (low high : ℤ) (o : YesNoMaybe) :
    ∃ t, VPLongRange.create low high true o = some t := by
  rw [VPLongRange.create, if_neg (fun h => absurd h.2.2 (by decide))]
  by_cases heq : low = high
  · exact ⟨_, if_pos heq⟩
  · exact ⟨_, if_neg heq⟩

/-- The mark of the object for the given bounds once it has been asked for. -/
def ValuePropagation.markAfter (vp : ValuePropagation) (low high : ℤ) (powerOfTwo : Bool) : Bool :=
  (vp.lookup low high .no).getD (powerOfTwo || vp.memory vp.longRanges.length)

theorem VPLongRange.createIn_fst :
    (VPLongRange.createIn vp low high powerOfTwo .no).1 =
      VPLongRange.create low high powerOfTwo .no := by
  rw [VPLongRange.createIn]
  cases VPLongRange.create low high powerOfTwo .no with
  | none => rfl
  | some t =>
    cases t with
    | const w v => rfl
    | range w l h o =>
      show (match vp.lookup l h o with
        | some _ => (some (VPSimple.range w l h o), vp)
        | none => (some (.range w l h o), vp.addLongRange l h o powerOfTwo)).1 = _
      cases vp.lookup l h o <;> rfl

/-- The table after a range was asked for. -/
theorem VPLongRange.createIn_snd (hne : low ≠ high)
    (hsome : ∃ t, VPLongRange.create low high powerOfTwo .no = some t) :
    (VPLongRange.createIn vp low high powerOfTwo .no).2 =
      if (vp.lookup low high .no).isSome then vp else vp.addLongRange low high .no powerOfTwo := by
  obtain ⟨t, ht⟩ := hsome
  have hrange := (VPLongRange.create_some ht).2.2.2 hne
  rw [VPLongRange.createIn, ht, hrange]
  show (match vp.lookup low high .no with
    | some _ => (some (VPSimple.range .long low high .no), vp)
    | none => (some (.range .long low high .no), vp.addLongRange low high .no powerOfTwo)).2 = _
  cases vp.lookup low high .no <;> rfl

theorem ValuePropagation.lookup_addLongRange {l h : ℤ} :
    (vp.addLongRange low high .no powerOfTwo).lookup l h .no =
      if low = l ∧ high = h then some (powerOfTwo || vp.memory vp.longRanges.length)
      else vp.lookup l h .no := by
  rw [lookup, addLongRange, List.find?_cons]
  by_cases heq : low = l ∧ high = h
  · simp [heq]
  · have hkey : decide (low = l ∧ high = h ∧ True) = false := by simpa using heq
    simp only [hkey, if_neg heq, lookup]

/-- The mark of a range that was asked for. -/
theorem VPLongRange.createIn_mark (hne : low ≠ high)
    (hsome : ∃ t, VPLongRange.create low high powerOfTwo .no = some t) :
    (VPLongRange.createIn vp low high powerOfTwo .no).2.lookup low high .no =
      some (vp.markAfter low high powerOfTwo) := by
  rw [VPLongRange.createIn_snd hne hsome, ValuePropagation.markAfter]
  cases hl : vp.lookup low high .no with
  | some m => simp [hl]
  | none => simp [ValuePropagation.lookup_addLongRange]

/-- The other objects keep their marks. -/
theorem VPLongRange.createIn_lookup_ne {l h : ℤ} (hother : ¬ (low = l ∧ high = h)) :
    (VPLongRange.createIn vp low high powerOfTwo .no).2.lookup l h .no = vp.lookup l h .no := by
  rw [VPLongRange.createIn]
  cases hc : VPLongRange.create low high powerOfTwo .no with
  | none => rfl
  | some t =>
    by_cases heq : low = high
    · rw [(VPLongRange.create_some hc).2.2.1 heq]
    · have hsnd := @VPLongRange.createIn_snd vp low high powerOfTwo heq ⟨t, hc⟩
      rw [VPLongRange.createIn, hc] at hsnd
      rw [hsnd]
      split_ifs
      · rfl
      · rw [ValuePropagation.lookup_addLongRange, if_neg hother]

/-- The condition for the 64-bit operations on the extremes of the results and the
hash table before the call. -/
structure LongFine (vp : ValuePropagation) (L H : ℤ) : Prop where
  sameSide : ¬ (H < Width.long.minSigned ∨ Width.long.maxSigned < L)
  oneOut : ¬ (L < Width.long.minSigned ∧ Width.long.maxSigned < H) →
    (L < Width.long.minSigned ∨ Width.long.maxSigned < H) →
    Width.long.wrap H < Width.long.wrap L →
    (Width.long.minSigned = Width.long.wrap H ∨
      vp.lookup Width.long.minSigned (Width.long.wrap H) .no = some false) ∧
    (Width.long.wrap L = Width.long.maxSigned ∨
      vp.lookup (Width.long.wrap L) Width.long.maxSigned .no = some false)
  inside : Width.long.minSigned ≤ L → H ≤ Width.long.maxSigned → L = H ∨
    (L = Width.long.minSigned ∧ H = Width.long.maxSigned) ∨ (L = 1 ∧ H = 2) ∨
    vp.markAfter L H false = false

/-- A marked range is right only when it is unmarked or `[1, 2]`. -/
theorem marks_iff (hlt : low < high) {m : Bool} (hm : vp.lookup low high .no = some m) :
    (vp.getIsPowerOfTwo (.range .long low high .no) = true →
      ∀ v ∈ (VPSimple.range .long low high .no).values, ∃ n : ℕ, v = 2 ^ n) ↔
      m = false ∨ (low = 1 ∧ high = 2) := by
  have hmark : vp.getIsPowerOfTwo (.range .long low high .no) = m := by
    rw [ValuePropagation.getIsPowerOfTwo, hm]
    rfl
  rw [hmark]
  cases m with
  | false => simp
  | true =>
    have hiff := forall_powerOfTwo_iff hlt
    constructor
    · intro h
      exact Or.inr (hiff.1 fun v h₁ h₂ => h rfl v ⟨h₁, h₂⟩)
    · rintro (h | h) _ v hv
      · cases h
      · exact hiff.2 h v hv.1 hv.2

/-- No overflow: the mark of the object decides. -/
theorem longGetRange_inside (h : ExactResults .long S L H) (hL : Width.long.minSigned ≤ L)
    (hH : H ≤ Width.long.maxSigned) :
    ArithSound .long (VPLongRange.createIn vp L H false .no).2 S
        ((VPLongRange.create L H false .no).map .simple) ↔ LongFine vp L H := by
  have hle := h.le
  have hfine : LongFine vp L H ↔ (L = H ∨ (L = Width.long.minSigned ∧ H = Width.long.maxSigned) ∨
      (L = 1 ∧ H = 2) ∨ vp.markAfter L H false = false) :=
    ⟨fun h => h.inside hL hH, fun h => ⟨by omega, fun _ _ => by omega, fun _ _ => h⟩⟩
  rw [hfine]
  cases hr : VPLongRange.create L H false .no with
  | none =>
    have hfull : L = Width.long.minSigned ∧ H = Width.long.maxSigned := by
      rw [VPLongRange.create] at hr
      split_ifs at hr with hfull
      exact ⟨hfull.1, hfull.2.1⟩
    exact iff_of_true (ArithSound.null _ _ _) (Or.inr (Or.inl hfull))
  | some t =>
    obtain ⟨htlow, hthigh, hconst, hrange⟩ := VPLongRange.create_some hr
    have hcontains : ∀ s ∈ S, Width.long.wrap s ∈ VPConstraint.allowed ((some t).map .simple) := by
      intro s hs
      have hs' := h.between s hs
      rw [Width.wrap_of_mem (by omega) (by omega)]
      exact VPConstraint.mem_allowed_simple (fun u hu => by
        obtain rfl := Option.some.inj hu
        exact ⟨htlow, hthigh⟩) hs'
    have hoverflow : ∀ s ∈ S, Width.long.minSigned ≤ s ∧ s ≤ Width.long.maxSigned := by
      intro s hs
      have hs' := h.between s hs
      omega
    by_cases heq : L = H
    · refine iff_of_true ⟨hcontains, fun _ _ _ => hoverflow, fun u hu hmark => ?_⟩ (Or.inl heq)
      have hu : u = t := by simpa [VPConstraint.parts] using hu
      rw [hu, hconst heq] at hmark
      cases hmark
    · have hmark := @VPLongRange.createIn_mark vp L H false heq ⟨t, hr⟩
      have hiff := marks_iff (by omega : L < H) hmark
      rw [hrange heq] at *
      constructor
      · intro hsound
        rcases hiff.1 (hsound.marks _ (by simp [VPConstraint.parts])) with hm | hm
        · exact Or.inr (Or.inr (Or.inr hm))
        · exact Or.inr (Or.inr (Or.inl hm))
      · intro hm
        have hpart : ¬ (L = Width.long.minSigned ∧ H = Width.long.maxSigned) := by
          rintro ⟨h₁, h₂⟩
          rw [VPLongRange.create, if_pos ⟨h₁, h₂, rfl⟩] at hr
          cases hr
        refine ⟨hcontains, fun _ _ _ => hoverflow, fun u hu => ?_⟩
        have hu : u = .range .long L H .no := by simpa [VPConstraint.parts] using hu
        rw [hu]
        exact hiff.2 (by tauto)

/-- Both extremes on one side outside the type: the constraint says that it cannot
overflow. -/
theorem longGetRange_sameSide (h : ExactResults .long S L H)
    (hside : H < Width.long.minSigned ∨ Width.long.maxSigned < L) (vp' : ValuePropagation) :
    ¬ ArithSound .long vp' S
      ((VPLongRange.create (Width.long.wrap L) (Width.long.wrap H) true .no).map .simple) := by
  intro hsound
  have hle := h.le
  obtain ⟨t, ht⟩ := VPLongRange.create_powerOfTwo (Width.long.wrap L) (Width.long.wrap H) .no
  obtain ⟨-, -, hconst, hrange⟩ := VPLongRange.create_some ht
  rw [ht] at hsound
  have hno : (VPConstraint.simple t).canOverflow = .no := by
    by_cases heq : Width.long.wrap L = Width.long.wrap H
    · rw [hconst heq]
      rfl
    · rw [hrange heq]
      rfl
  have := hsound.overflow _ rfl hno L h.low_mem
  omega

/-- The mark of one part of a list: it is right for a constant, and for a range
that was in the table without the mark. -/
theorem part_marks_iff {t : VPSimple} {vp' : ValuePropagation}
    (ht : VPLongRange.create low high true .no = some t) (hle : low ≤ high)
    (hbounds : ¬ (low = 1 ∧ high = 2))
    (hmark : low ≠ high → vp'.lookup low high .no = some (vp.markAfter low high true)) :
    (vp'.getIsPowerOfTwo t = true → ∀ v ∈ t.values, ∃ n : ℕ, v = 2 ^ n) ↔
      low = high ∨ vp.lookup low high .no = some false := by
  obtain ⟨-, -, hconst, hrange⟩ := VPLongRange.create_some ht
  by_cases heq : low = high
  · refine iff_of_true (fun h => ?_) (Or.inl heq)
    rw [hconst heq] at h
    cases h
  · rw [hrange heq, marks_iff (by omega) (hmark heq), ValuePropagation.markAfter]
    cases hl : vp.lookup low high .no with
    | none => simp [heq, hbounds]
    | some m => simp [heq, hbounds]

/-- One extreme outside the type and two separate parts: their marks decide. -/
theorem longGetRange_oneOut (h : ExactResults .long S L H)
    (hout : (L < Width.long.minSigned ∧ Width.long.minSigned ≤ H ∧ H ≤ Width.long.maxSigned) ∨
      (Width.long.minSigned ≤ L ∧ L ≤ Width.long.maxSigned ∧ Width.long.maxSigned < H))
    (hlt : Width.long.wrap H < Width.long.wrap L) {t u : VPSimple}
    (ht : VPLongRange.create Width.long.minSigned (Width.long.wrap H) true .no = some t)
    (hu : VPLongRange.create (Width.long.wrap L) Width.long.maxSigned true .no = some u) :
    ArithSound .long (VPLongRange.createIn
        (VPLongRange.createIn vp Width.long.minSigned (Width.long.wrap H) true .no).2
        (Width.long.wrap L) Width.long.maxSigned true .no).2 S
      (some (.merged [.simple t, .simple u])) ↔ LongFine vp L H := by
  have hmL := Width.long.wrap_mem L
  have hmH := Width.long.wrap_mem H
  have hmin : Width.long.minSigned < 0 := by decide
  have hmax : 2 < Width.long.maxSigned := by decide
  obtain ⟨htlow, hthigh, -, -⟩ := VPLongRange.create_some ht
  obtain ⟨hulow, huhigh, -, -⟩ := VPLongRange.create_some hu
  have hfine : LongFine vp L H ↔ (Width.long.minSigned = Width.long.wrap H ∨
      vp.lookup Width.long.minSigned (Width.long.wrap H) .no = some false) ∧
      (Width.long.wrap L = Width.long.maxSigned ∨
        vp.lookup (Width.long.wrap L) Width.long.maxSigned .no = some false) := by
    have hle := h.le
    exact ⟨fun h => h.oneOut (by omega) (by omega) hlt,
      fun h => ⟨by omega, fun _ _ _ => h, fun _ _ => by omega⟩⟩
  generalize hvp₁ : (VPLongRange.createIn vp Width.long.minSigned (Width.long.wrap H) true .no).2 =
    vp₁
  generalize hvp₂ : (VPLongRange.createIn vp₁ (Width.long.wrap L) Width.long.maxSigned true .no).2 =
    vp₂
  -- the second object leaves the first one alone, and was in the table only if it was before
  have ht' := @part_marks_iff vp Width.long.minSigned (Width.long.wrap H) t vp₂ ht hmH.1
    (by omega) (fun hne => by
      rw [← hvp₂, VPLongRange.createIn_lookup_ne (by omega), ← hvp₁]
      exact VPLongRange.createIn_mark hne ⟨t, ht⟩)
  have hu' := @part_marks_iff vp (Width.long.wrap L) Width.long.maxSigned u vp₂ hu hmL.2
    (by omega) (fun hne => by
      have hkeep : vp₁.lookup (Width.long.wrap L) Width.long.maxSigned .no =
          vp.lookup (Width.long.wrap L) Width.long.maxSigned .no := by
        rw [← hvp₁]
        exact VPLongRange.createIn_lookup_ne (by omega)
      rw [← hvp₂, VPLongRange.createIn_mark hne ⟨u, hu⟩]
      simp only [ValuePropagation.markAfter, hkeep, Bool.true_or])
  rw [hfine, ← ht', ← hu']
  constructor
  · intro hsound
    exact ⟨hsound.marks t (by simp [VPConstraint.parts]), hsound.marks u (by simp [VPConstraint.parts])⟩
  · rintro ⟨hmt, hmu⟩
    refine ⟨fun s hs => ?_, fun c hc hno => ?_, fun v hv => ?_⟩
    · rcases h.wrap_mem_oneOut hout hs with hs | hs
      · exact ⟨.simple t, by simp, htlow.le.trans hs.1, hs.2.trans hthigh.ge⟩
      · exact ⟨.simple u, by simp, hulow.le.trans hs.1, hs.2.trans huhigh.ge⟩
    · obtain rfl := Option.some.inj hc
      cases hno
    · have hv : v = t ∨ v = u := by simpa [VPConstraint.parts] using hv
      rcases hv with rfl | rfl
      · exact hmt
      · exact hmu

/-- The 64-bit `getRange` is right exactly under the condition. -/
theorem longGetRange_sound_iff (vp : ValuePropagation) (h : ExactResults .long S L H) :
    ∃ r vp', VPLongConstraint.getRange vp (bound .long L).1 (bound .long H).1 (bound .long L).2
        (bound .long H).2 = .done (r, vp') ∧ (ArithSound .long vp' S r ↔ LongFine vp L H) := by
  have hle := h.le
  have hminmax := Width.long.minSigned_lt_maxSigned
  cases position .long L H with
  | inside hL hH =>
    rw [bound_inside hL (by omega), bound_inside (by omega) hH]
    refine ⟨(VPLongRange.createIn vp L H false .no).1.map .simple,
      (VPLongRange.createIn vp L H false .no).2, rfl, ?_⟩
    rw [VPLongRange.createIn_fst]
    exact longGetRange_inside h hL hH
  | sameSide hside =>
    rw [bound_outside (by omega), bound_outside (by omega), VPLongConstraint.getRange]
    simp only [Bool.and_self, if_true, if_neg (h.xor_wrap.1 hside)]
    refine ⟨(VPLongRange.createIn vp (Width.long.wrap L) (Width.long.wrap H) true .no).1.map .simple,
      _, rfl, ?_⟩
    rw [VPLongRange.createIn_fst]
    exact iff_of_false (longGetRange_sameSide h hside _) fun hfine => hfine.sameSide hside
  | around hL hH =>
    rw [bound_outside (Or.inl hL), bound_outside (Or.inr hH), VPLongConstraint.getRange]
    simp only [Bool.and_self, if_true, if_pos (h.xor_wrap.2 hL hH)]
    exact ⟨none, vp, rfl, iff_of_true (ArithSound.null _ _ _)
      ⟨by omega, fun hnot => absurd ⟨hL, hH⟩ hnot, fun _ _ => by omega⟩⟩
  | oneOut hout =>
    have hflags := oneOut_flags hout
    show ∃ r vp', VPLongConstraint.getRange vp (Width.long.wrap L) (Width.long.wrap H)
      (bound .long L).2 (bound .long H).2 = .done (r, vp') ∧ _
    rw [VPLongConstraint.getRange, hflags.1, hflags.2]
    simp only [Bool.false_eq_true, if_false, if_true]
    by_cases hge : Width.long.wrap H ≥ Width.long.wrap L
    · exact ⟨none, vp, if_pos hge, iff_of_true (ArithSound.null _ _ _)
        ⟨by omega, fun _ _ _ => by omega, fun _ _ => by omega⟩⟩
    · obtain ⟨t, ht⟩ := VPLongRange.create_powerOfTwo Width.long.minSigned (Width.long.wrap H) .no
      obtain ⟨u, hu⟩ := VPLongRange.create_powerOfTwo (Width.long.wrap L) Width.long.maxSigned .no
      refine ⟨some (.merged [.simple t, .simple u]), _, ?_, longGetRange_oneOut h hout (by omega) ht hu⟩
      rw [if_neg hge, VPLongRange.createIn_fst, VPLongRange.createIn_fst, ht, hu]
      rfl

end Long

/-! ## The operations -/

namespace VPSimple

/-- The condition for an operation of any width. -/
def ArithFine (vp : ValuePropagation) (w : Width) (L H : ℤ) : Prop :=
  match w with
  | .long => LongFine vp L H
  | w => NarrowFine w L H

theorem getRange_sound_iff (vp : ValuePropagation) {w : Width} {S : Set ℤ} {L H : ℤ}
    (h : ExactResults w S L H) :
    (∃ r vp', getRange vp w (bound w L) (bound w H) = .done (r, vp') ∧ ArithSound w vp' S r) ↔
      ArithFine vp w L H := by
  have hdone : ∃ r vp', getRange vp w (bound w L) (bound w H) = .done (r, vp') ∧
      (ArithSound w vp' S r ↔ ArithFine vp w L H) := by
    cases w with
    | short =>
      obtain ⟨r, hr, hiff⟩ := narrowGetRange_sound_iff (by decide) vp h
      exact ⟨r, vp, by rw [getRange, VPShortConstraint.getRange, hr]; rfl, hiff⟩
    | int =>
      obtain ⟨r, hr, hiff⟩ := narrowGetRange_sound_iff (by decide) vp h
      exact ⟨r, vp, by rw [getRange, VPIntConstraint.getRange, hr]; rfl, hiff⟩
    | long => exact longGetRange_sound_iff vp h
  obtain ⟨r, vp', hr, hiff⟩ := hdone
  rw [← hiff]
  constructor
  · rintro ⟨r', vp'', hr', hsound⟩
    rw [hr] at hr'
    obtain ⟨rfl, rfl⟩ := Prod.mk.inj (Outcome.done.inj hr')
    exact hsound
  · exact fun hsound => ⟨r, vp', hr, hsound⟩

/-- The exact sums of two constraints. -/
def sums (a b : VPSimple) : Set ℤ := {s | ∃ x ∈ a.values, ∃ y ∈ b.values, s = x + y}

/-- The exact differences of two constraints. -/
def differences (a b : VPSimple) : Set ℤ := {s | ∃ x ∈ a.values, ∃ y ∈ b.values, s = x - y}

variable {a b : VPSimple}

theorem exactResults_sums (ha : a.Valid) (hb : b.Valid) (hw : b.width = a.width) :
    ExactResults a.width (sums a b) (a.getLow + b.getLow) (a.getHigh + b.getHigh) := by
  have hal := ha.low_le_high
  have hbl := hb.low_le_high
  have h₁ := ha.min_le
  have h₂ := ha.le_max
  have h₃ := hb.min_le
  have h₄ := hb.le_max
  rw [hw] at h₃ h₄
  refine ⟨⟨_, ⟨le_rfl, hal⟩, _, ⟨le_rfl, hbl⟩, rfl⟩, ⟨_, ⟨hal, le_rfl⟩, _, ⟨hbl, le_rfl⟩, rfl⟩,
    ?_, ?_, ?_⟩
  · rintro s ⟨x, hx, y, hy, rfl⟩
    have hx' := mem_values.1 hx
    have hy' := mem_values.1 hy
    omega
  · simp only [Width.minSigned] at h₁ h₃
    omega
  · simp only [Width.maxSigned] at h₂ h₄
    omega

theorem exactResults_differences (ha : a.Valid) (hb : b.Valid) (hw : b.width = a.width) :
    ExactResults a.width (differences a b) (a.getLow - b.getHigh) (a.getHigh - b.getLow) := by
  have hal := ha.low_le_high
  have hbl := hb.low_le_high
  have h₁ := ha.min_le
  have h₂ := ha.le_max
  have h₃ := hb.min_le
  have h₄ := hb.le_max
  rw [hw] at h₃ h₄
  refine ⟨⟨_, ⟨le_rfl, hal⟩, _, ⟨hbl, le_rfl⟩, rfl⟩, ⟨_, ⟨hal, le_rfl⟩, _, ⟨le_rfl, hbl⟩, rfl⟩,
    ?_, ?_, ?_⟩
  · rintro s ⟨x, hx, y, hy, rfl⟩
    have hx' := mem_values.1 hx
    have hy' := mem_values.1 hy
    omega
  · simp only [Width.minSigned, Width.maxSigned] at h₁ h₄
    omega
  · simp only [Width.minSigned, Width.maxSigned] at h₂ h₃
    omega

/-- Addition and subtraction of two constraints of one width are sound exactly
under the conditions on the extremes of the exact results: at 16 and 32 bits no
constant comes out of an overflow, at 64 bits not all results overflow on one
side and no object of the hash table is marked as a power of two without being
one. -/
theorem arithmetic_sound_iff (vp : ValuePropagation) (a b : VPSimple) (ha : a.Valid)
    (hb : b.Valid) (hw : b.width = a.width) :
    ((∃ r vp', a.add vp b a.width = .done (r, vp') ∧ ArithSound a.width vp' (sums a b) r) ↔
        ArithFine vp a.width (a.getLow + b.getLow) (a.getHigh + b.getHigh)) ∧
      ((∃ r vp', a.subtract vp b a.width = .done (r, vp') ∧
          ArithSound a.width vp' (differences a b) r) ↔
        ArithFine vp a.width (a.getLow - b.getHigh) (a.getHigh - b.getLow)) := by
  have hal := ha.low_le_high
  have hbl := hb.low_le_high
  have h₁ := ha.min_le
  have h₂ := ha.le_max
  have h₃ := hb.min_le
  have h₄ := hb.le_max
  rw [hw] at h₃ h₄
  constructor
  · rw [← getRange_sound_iff vp (exactResults_sums ha hb hw), add, if_neg (by simp [hw]),
      addWithOverflow_eq h₁ (by omega) h₃ (by omega), addWithOverflow_eq (by omega) h₂ (by omega) h₄]
  · rw [← getRange_sound_iff vp (exactResults_differences ha hb hw), subtract, if_neg (by simp [hw]),
      subWithOverflow_eq h₁ (by omega) (by omega) h₄, subWithOverflow_eq (by omega) h₂ h₃ (by omega)]

/-- A 32-bit range at the upper end of the type and a range of small numbers. -/
theorem arithmetic_sound_iff_int :
    ∃ r vp', (VPSimple.range .int 2147483640 2147483647 .no).add ⟨[], fun _ => false⟩
        (.range .int 1 9 .no) .int = .done (r, vp') ∧
      ArithSound .int vp' (sums (.range .int 2147483640 2147483647 .no) (.range .int 1 9 .no)) r :=
  (arithmetic_sound_iff ⟨[], fun _ => false⟩ (.range .int 2147483640 2147483647 .no)
    (.range .int 1 9 .no) (by decide) (by decide) rfl).1.2
    (by
      rintro ⟨heq, -⟩
      exact absurd heq (by decide))

/-- Two 64-bit ranges whose sums all overflow: the result says that it cannot
overflow, and is marked as a power of two. -/
theorem long_add_not_sound :
    (∃ vp', (VPSimple.range .long 9223372036854775806 9223372036854775807 .no).add
          ⟨[], fun _ => false⟩ (.range .long 5 6 .no) .long =
        .done (some (.simple (.range .long (-9223372036854775805) (-9223372036854775803) .no)), vp') ∧
      vp'.getIsPowerOfTwo (.range .long (-9223372036854775805) (-9223372036854775803) .no) = true) ∧
    ¬ ∃ r vp', (VPSimple.range .long 9223372036854775806 9223372036854775807 .no).add
          ⟨[], fun _ => false⟩ (.range .long 5 6 .no) .long = .done (r, vp') ∧
        ArithSound .long vp' (sums (.range .long 9223372036854775806 9223372036854775807 .no)
          (.range .long 5 6 .no)) r := by
  have hadd : (VPSimple.range .long 9223372036854775806 9223372036854775807 .no).add
      ⟨[], fun _ => false⟩ (.range .long 5 6 .no) .long =
      .done (some (.simple (.range .long (-9223372036854775805) (-9223372036854775803) .no)),
        ⟨[⟨-9223372036854775805, -9223372036854775803, .no, true⟩], fun _ => false⟩) := by
    rfl
  refine ⟨⟨_, hadd, by decide⟩, ?_⟩
  rintro ⟨r, vp', hr, hsound⟩
  rw [hadd] at hr
  obtain ⟨rfl, rfl⟩ := Prod.mk.inj (Outcome.done.inj hr)
  have := hsound.overflow _ rfl rfl (9223372036854775806 + 5)
    ⟨9223372036854775806, ⟨by decide, by decide⟩, 5, ⟨by decide, by decide⟩, rfl⟩
  exact absurd this.2 (by decide)

end VPSimple

end OMR.Compiler
