import OMR.Lib.IntervalList

/-!
# Numeric constraints of value propagation

The numeric part of `VPConstraint`: constants and ranges of 16, 32 and 64 bits
and the lists of them that `VPMergedConstraints` holds. Constraints are shared
through a hash table, so two pointers are equal exactly when the data are; the
mark `_unsignedType` is never set in the source and is left out here, and so is
`_isPowerOfTwo`, which none of the functions of this module reads.
-/

namespace OMR.Compiler

open OMR.Lib

/-- `TR::Int16`, `TR::Int32` and `TR::Int64`. -/
inductive Width
  | short
  | int
  | long
deriving DecidableEq, Repr

namespace Width

def bits : Width → ℕ
  | short => 16
  | int => 32
  | long => 64

/-- Half the number of values of the type: `2 ^ (bits - 1)`. -/
def half : Width → ℤ
  | short => 32768
  | int => 2147483648
  | long => 9223372036854775808

/-- `TR::getMinSigned`. -/
def minSigned (w : Width) : ℤ := -w.half

/-- `TR::getMaxSigned`. -/
def maxSigned (w : Width) : ℤ := w.half - 1

/-- The conversion of an integer to the signed type. -/
def wrap (w : Width) (x : ℤ) : ℤ := Int.bmod x (2 ^ w.bits)

/-- `x + 1` as the source computes it: a 16-bit operand is promoted to 32 bits
first, the other types wrap around. -/
def plusOne : Width → ℤ → ℤ
  | short, x => x + 1
  | w, x => w.wrap (x + 1)

/-- `ShortPriority`, `IntPriority` and `LongPriority`. -/
def priority : Width → ℕ
  | short => 14
  | int => 13
  | long => 12

theorem half_pos (w : Width) : 0 < w.half := by
  cases w <;> simp [half]

theorem two_pow_bits (w : Width) : ((2 ^ w.bits : ℕ) : ℤ) = 2 * w.half := by
  cases w <;> rfl

theorem minSigned_lt_maxSigned (w : Width) : w.minSigned < w.maxSigned := by
  cases w <;> decide

/-- The values of the type are left alone by a conversion. -/
theorem wrap_of_mem {w : Width} {x : ℤ} (hlow : w.minSigned ≤ x) (hhigh : x ≤ w.maxSigned) :
    w.wrap x = x := by
  have hbits := w.two_pow_bits
  simp only [minSigned, maxSigned] at hlow hhigh
  apply Int.bmod_eq_of_le <;> rw [hbits] <;> omega

/-- A conversion gives a value of the type. -/
theorem wrap_mem (w : Width) (x : ℤ) : w.minSigned ≤ w.wrap x ∧ w.wrap x ≤ w.maxSigned := by
  have hbits := w.two_pow_bits
  have hpos : 0 < 2 ^ w.bits := Nat.two_pow_pos _
  have hlow := @Int.le_bmod x (2 ^ w.bits) hpos
  have hhigh := @Int.bmod_lt x (2 ^ w.bits) hpos
  simp only [minSigned, maxSigned, wrap]
  omega

/-- A value one period below the type is moved up by the number of values. -/
theorem wrap_of_lt {w : Width} {x : ℤ} (hlow : -(2 * w.half) ≤ x) (hlt : x < w.minSigned) :
    w.wrap x = x + 2 * w.half := by
  cases w <;> simp only [wrap, bits, half, minSigned, Int.bmod] at * <;> norm_num <;> omega

/-- A value one period above the type is moved down by the number of values. -/
theorem wrap_of_gt {w : Width} {x : ℤ} (hlt : w.maxSigned < x) (hhigh : x < 2 * w.half) :
    w.wrap x = x - 2 * w.half := by
  cases w <;> simp only [wrap, bits, half, maxSigned, Int.bmod] at * <;> norm_num <;> omega

theorem wrap_succ_maxSigned (w : Width) : w.wrap (w.maxSigned + 1) = w.minSigned := by
  cases w <;> decide

end Width

/-- `TR_YesNoMaybe`. -/
inductive YesNoMaybe
  | no
  | yes
  | maybe
deriving DecidableEq, Repr

/-- The constraints that are not lists: `VPShortConst`, `VPIntConst` and
`VPLongConst`, and `VPShortRange`, `VPIntRange` and `VPLongRange` with the flag
`_overflow`. -/
inductive VPSimple
  | const (w : Width) (v : ℤ)
  | range (w : Width) (low high : ℤ) (overflow : YesNoMaybe)
deriving DecidableEq, Repr

namespace VPSimple

def width : VPSimple → Width
  | const w _ => w
  | range w _ _ _ => w

def getLow : VPSimple → ℤ
  | const _ v => v
  | range _ low _ _ => low

def getHigh : VPSimple → ℤ
  | const _ v => v
  | range _ _ high _ => high

/-- The constructors of constants leave the flag at `TR_no`. -/
def canOverflow : VPSimple → YesNoMaybe
  | const _ _ => .no
  | range _ _ _ overflow => overflow

def interval (s : VPSimple) : Interval := ⟨s.getLow, s.getHigh⟩

@[simp] theorem interval_low (s : VPSimple) : s.interval.low = s.getLow := rfl

@[simp] theorem interval_high (s : VPSimple) : s.interval.high = s.getHigh := rfl

/-- The integers that a constraint allows. -/
def values (s : VPSimple) : Set ℤ := s.interval.values

theorem mem_values {s : VPSimple} {x : ℤ} : x ∈ s.values ↔ s.getLow ≤ x ∧ x ≤ s.getHigh := Iff.rfl

/-- What the source's constructors guarantee: bounds of the type in the right
order, and the whole type only as a 64-bit range (which the source builds for
powers of two). -/
structure Valid (s : VPSimple) : Prop where
  min_le : s.width.minSigned ≤ s.getLow
  low_le_high : s.getLow ≤ s.getHigh
  le_max : s.getHigh ≤ s.width.maxSigned
  partly : s.getLow = s.width.minSigned → s.getHigh = s.width.maxSigned → s.width = .long

instance (s : VPSimple) : Decidable s.Valid :=
  decidable_of_iff (s.width.minSigned ≤ s.getLow ∧ s.getLow ≤ s.getHigh ∧
      s.getHigh ≤ s.width.maxSigned ∧
      (s.getLow = s.width.minSigned → s.getHigh = s.width.maxSigned → s.width = .long))
    ⟨fun h => ⟨h.1, h.2.1, h.2.2.1, h.2.2.2⟩,
      fun h => ⟨h.min_le, h.low_le_high, h.le_max, h.partly⟩⟩

end VPSimple

/-- The common part of `VPShortRange::create` and `VPIntRange::create`: no
constraint for the whole type, a constant for a single value. -/
def rangeOrConst (w : Width) (low high : ℤ) (canOverflow : YesNoMaybe) : Option VPSimple :=
  if low = w.minSigned ∧ high = w.maxSigned then none
  else if low = high then some (.const w low)
  else some (.range w low high canOverflow)

def VPShortRange.create (low high : ℤ) (canOverflow : YesNoMaybe := .no) : Option VPSimple :=
  rangeOrConst .short low high canOverflow

def VPIntRange.create (low high : ℤ) (canOverflow : YesNoMaybe := .no) : Option VPSimple :=
  rangeOrConst .int low high canOverflow

/-- The whole type becomes a range of its own when it is to be marked as a power
of two. -/
def VPLongRange.create (low high : ℤ) (powerOfTwo : Bool := false)
    (canOverflow : YesNoMaybe := .no) : Option VPSimple :=
  if low = Width.long.minSigned ∧ high = Width.long.maxSigned ∧ powerOfTwo = false then none
  else if low = high then some (.const .long low)
  else some (.range .long low high canOverflow)

/-- The range constructor of a width, with the default flags. -/
def rangeCreate : Width → ℤ → ℤ → Option VPSimple
  | .short, low, high => VPShortRange.create low high
  | .int, low, high => VPIntRange.create low high
  | .long, low, high => VPLongRange.create low high

theorem rangeCreate_eq (w : Width) (low high : ℤ) :
    rangeCreate w low high = rangeOrConst w low high .no := by
  cases w <;> simp [rangeCreate, VPShortRange.create, VPIntRange.create, VPLongRange.create,
    rangeOrConst]

theorem rangeCreate_eq_none {w : Width} {low high : ℤ} :
    rangeCreate w low high = none ↔ low = w.minSigned ∧ high = w.maxSigned := by
  rw [rangeCreate_eq, rangeOrConst]
  split_ifs with hfull heq
  · simp [hfull]
  · simp [hfull]
  · simp [hfull]

theorem rangeOrConst_some {w : Width} {low high : ℤ} {o : YesNoMaybe} {s : VPSimple}
    (h : rangeOrConst w low high o = some s) :
    s.width = w ∧ s.getLow = low ∧ s.getHigh = high ∧ (low ≠ high → s = .range w low high o) := by
  rw [rangeOrConst] at h
  split_ifs at h with hfull heq
  · obtain rfl := Option.some.inj h
    exact ⟨rfl, rfl, heq, fun hne => absurd heq hne⟩
  · obtain rfl := Option.some.inj h
    exact ⟨rfl, rfl, rfl, fun _ => rfl⟩

/-- The constraint that a range constructor gives has the bounds it was asked
for. -/
theorem rangeCreate_some {w : Width} {low high : ℤ} {s : VPSimple}
    (h : rangeCreate w low high = some s) :
    s.width = w ∧ s.getLow = low ∧ s.getHigh = high := by
  rw [rangeCreate_eq] at h
  obtain ⟨hw, hlow, hhigh, -⟩ := rangeOrConst_some h
  exact ⟨hw, hlow, hhigh⟩

/-- Two bounds of a type in the right order, not both extreme, give a
constraint. -/
theorem exists_rangeCreate {w : Width} {low high : ℤ} (hmin : w.minSigned ≤ low)
    (hle : low ≤ high) (hmax : high ≤ w.maxSigned)
    (hpart : ¬ (low = w.minSigned ∧ high = w.maxSigned)) :
    ∃ s, rangeCreate w low high = some s ∧ s.Valid ∧ s.width = w ∧ s.interval = ⟨low, high⟩ := by
  cases hs : rangeCreate w low high with
  | none => exact absurd (rangeCreate_eq_none.1 hs) hpart
  | some s =>
    obtain ⟨hw, hlow, hhigh⟩ := rangeCreate_some hs
    refine ⟨s, rfl, ⟨?_, ?_, ?_, ?_⟩, hw, Interval.ext hlow hhigh⟩
    · rwa [hw, hlow]
    · rwa [hlow, hhigh]
    · rwa [hw, hhigh]
    · rw [hw, hlow, hhigh]
      exact fun h₁ h₂ => absurd ⟨h₁, h₂⟩ hpart

/-- An element of the list of a `VPMergedConstraints`. The source puts constants
and ranges there; merging a 32-bit with a 64-bit constraint can also put a list
of two of them there. -/
inductive Entry
  | simple (s : VPSimple)
  | list (l : List VPSimple)
deriving DecidableEq, Repr

/-- A numeric constraint: a constant, a range or a `VPMergedConstraints`. -/
inductive VPConstraint
  | simple (s : VPSimple)
  | merged (constraints : List Entry)
deriving DecidableEq, Repr

namespace Entry

/-- `asShortConstraint`, `asIntConstraint` and `asLongConstraint`. -/
def asConstraint (w : Width) : Entry → Option VPSimple
  | simple s => if s.width = w then some s else none
  | list _ => none

def values : Entry → Set ℤ
  | simple s => s.values
  | list l => valuesOf (l.map VPSimple.interval)

/-- The constraint that an element of a list is. -/
def toConstraint : Entry → VPConstraint
  | simple s => .simple s
  | list l => .merged (l.map simple)

@[simp] theorem asConstraint_simple (s : VPSimple) : (simple s).asConstraint s.width = some s :=
  if_pos rfl

theorem asConstraint_of_width {s : VPSimple} {w : Width} (h : s.width = w) :
    (simple s).asConstraint w = some s := if_pos h

end Entry

namespace VPConstraint

/-- The type that the constructor of `VPMergedConstraints` reads off the first
element of the list. -/
def mergedType : List Entry → Width
  | .simple s :: _ => s.width
  | _ => .int

/-- The integers that a constraint allows. -/
def values : VPConstraint → Set ℤ
  | simple s => s.values
  | merged es => {x | ∃ e ∈ es, x ∈ e.values}

/-- The integers that a result allows, where `NULL` means that nothing is known. -/
def allowed : Option VPConstraint → Set ℤ
  | none => Set.univ
  | some c => c.values

/-- A list of at least two valid constraints of one width, as
`VPMergedConstraints` is meant to hold. -/
structure ListOf (w : Width) (l : List VPSimple) : Prop where
  two_le : 2 ≤ l.length
  valid : ∀ s ∈ l, s.Valid
  width : ∀ s ∈ l, s.width = w
  ordered : Ordered (l.map VPSimple.interval)

instance (w : Width) (l : List VPSimple) : Decidable (ListOf w l) :=
  decidable_of_iff (2 ≤ l.length ∧ (∀ s ∈ l, s.Valid) ∧ (∀ s ∈ l, s.width = w) ∧
      Ordered (l.map VPSimple.interval))
    ⟨fun h => ⟨h.1, h.2.1, h.2.2.1, h.2.2.2⟩, fun h => ⟨h.two_le, h.valid, h.width, h.ordered⟩⟩

/-- A constraint of width `w`: a constant, a range, or an ordered list of
disjoint ones. -/
inductive Valid (w : Width) : VPConstraint → Prop
  | simple {s : VPSimple} (hs : s.Valid) (hw : s.width = w) : Valid w (.simple s)
  | merged {l : List VPSimple} (hl : ListOf w l) : Valid w (.merged (l.map .simple))

theorem Valid.exists_list {w : Width} {es : List Entry} (h : Valid w (.merged es)) :
    ∃ l : List VPSimple, es = l.map .simple ∧ ListOf w l := by
  cases h with
  | merged hl => exact ⟨_, rfl, hl⟩

theorem map_simple_injective : Function.Injective (List.map Entry.simple) :=
  List.map_injective_iff.2 fun _ _ h => Entry.simple.inj h

/-- A list is valid only at the width of its elements. -/
theorem ListOf.of_valid {w : Width} {l : List VPSimple} (h : Valid w (.merged (l.map .simple))) :
    ListOf w l := by
  obtain ⟨l', heq, hl'⟩ := h.exists_list
  rwa [map_simple_injective heq]

theorem values_merged (l : List VPSimple) :
    (merged (l.map .simple)).values = valuesOf (l.map VPSimple.interval) := by
  ext x
  simp [values, valuesOf, Entry.values, VPSimple.values]

theorem mergedType_map {w : Width} {l : List VPSimple} (h : ListOf w l) :
    mergedType (l.map .simple) = w := by
  cases l with
  | nil => exact absurd h.two_le (by simp)
  | cons s l => exact h.width s (by simp)

end VPConstraint

/-- How a call ends: with a result, in the dereference of a `NULL` pointer, or
not yet within the steps it was given. -/
inductive Outcome (α : Type)
  | done (a : α)
  | nullDereference
  | unfinished
deriving DecidableEq, Repr

namespace Outcome

def bind {α β : Type} (o : Outcome α) (f : α → Outcome β) : Outcome β :=
  match o with
  | done a => f a
  | nullDereference => nullDereference
  | unfinished => unfinished

@[simp] theorem bind_done {α β : Type} (a : α) (f : α → Outcome β) : (done a).bind f = f a := rfl

end Outcome

/-- The elements of a list of pointers, if none of them is `NULL`. -/
def nonNull {α : Type} : List (Option α) → Option (List α)
  | [] => some []
  | none :: _ => none
  | some a :: l => (nonNull l).map (a :: ·)

@[simp] theorem nonNull_map_some {α : Type} (l : List α) : nonNull (l.map some) = some l := by
  induction l with
  | nil => rfl
  | cons a l ih => simp [nonNull, ih]

/-- `VPMergedConstraints::create`. It asks every element whether it is unsigned,
so that a `NULL` element is dereferenced. -/
def VPMergedConstraints.create (list : List (Option Entry)) : Outcome VPConstraint :=
  match nonNull list with
  | some es => .done (.merged es)
  | none => .nullDereference

/-- How the list functions end: the single element for a list of one, otherwise a
new list. -/
def collapse (result : List (Option Entry)) : Outcome (Option VPConstraint) :=
  match result with
  | [e] => .done (e.map Entry.toConstraint)
  | result => (VPMergedConstraints.create result).bind fun c => .done (some c)

end OMR.Compiler
