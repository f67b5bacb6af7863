import OMR.Compiler.VPConstraint

/-!
# Intersecting numeric constraints

`VPConstraint::intersect` with the three `intersect1` of constants and ranges,
and the loops of `VPMergedConstraints::shortIntersect`, `intIntersect` and
`longIntersect`. The source has five copies of that loop, for the three widths
and for the two mixtures of 32 and 64 bits; they are one definition here, and
`WalkKind` says in what they differ.
-/

namespace OMR.Compiler

open OMR.Lib

namespace VPSimple

/-- The same-width branch of `intersect1` once the operand with the smaller lower
bound comes first. -/
def intersectOrdered (this other : VPSimple) : Option VPSimple :=
  if other.getHigh ≤ this.getHigh then some other
  else if other.getLow ≤ this.getHigh then rangeCreate this.width other.getLow this.getHigh
  else none

/-- The same-width branch of `intersect1`. The call with the operands exchanged
does not exchange them again. -/
def intersectSame (this other : VPSimple) : Option VPSimple :=
  if other.getLow < this.getLow then other.intersectOrdered this
  else this.intersectOrdered other

/-- `lowVal` of the mixed-width branches. -/
def lowVal (this other : VPSimple) : ℤ :=
  if other.getLow < this.getLow then this.getLow else other.getLow

/-- `highVal` of the mixed-width branches. -/
def highVal (this other : VPSimple) : ℤ :=
  if other.getHigh ≤ this.getHigh then other.getHigh else this.getHigh

/-- The branch of `VPIntConstraint::intersect1` for a 64-bit operand. -/
def intIntersect1Long (this other : VPSimple) : Option VPSimple :=
  VPLongRange.create (Width.int.wrap (this.lowVal other)) (Width.int.wrap (this.highVal other))

/-- The branch of `VPLongConstraint::intersect1` for a 32-bit operand. -/
def longIntersect1Int (this other : VPSimple) : Option VPSimple :=
  if other.getLow < this.getLow then other.intIntersect1Long this
  else if other.getHigh ≤ this.getHigh then VPLongRange.create this.getLow other.getHigh
  else if other.getLow ≤ this.getHigh then
    if this.getHigh > Width.int.maxSigned then
      VPLongRange.create other.getLow Width.int.maxSigned
    else VPLongRange.create other.getLow this.getHigh
  else none

/-- `intersect1` of `VPShortConstraint`, `VPIntConstraint` and
`VPLongConstraint`. -/
def intersect1 (this other : VPSimple) : Option VPSimple :=
  match this.width, other.width with
  | .short, .short => this.intersectSame other
  | .short, .int | .short, .long =>
    VPShortRange.create (Width.short.wrap (this.lowVal other))
      (Width.short.wrap (this.highVal other))
  | .int, .int => this.intersectSame other
  | .int, .long => this.intIntersect1Long other
  | .int, .short => none
  | .long, .long => this.intersectSame other
  | .long, .int => this.longIntersect1Int other
  | .long, .short => none

end VPSimple

/-- What tells the copies of the loop apart: the widths of the two lists, and
whether the bounds are read from the elements again in every iteration. -/
structure WalkKind where
  curWidth : Width
  otherWidth : Width
  reload : Bool

/-- The variables of the loop. -/
structure Walk where
  cur : VPSimple
  next : List Entry
  otherCur : VPSimple
  otherNext : List Entry
  curLow : ℤ
  curHigh : ℤ
  otherLow : ℤ
  otherHigh : ℤ
  result : List (Option VPSimple)

/-- How an iteration ends. -/
inductive Progress
  | again (s : Walk)
  | exit (result : List (Option VPSimple))
  | nullDereference

namespace Walk

/-- The loop variables before the first iteration. -/
def start (cur : VPSimple) (next : List Entry) (otherCur : VPSimple) (otherNext : List Entry) :
    Walk :=
  { cur := cur, next := next, otherCur := otherCur, otherNext := otherNext,
    curLow := cur.getLow, curHigh := cur.getHigh,
    otherLow := otherCur.getLow, otherHigh := otherCur.getHigh, result := [] }

/-- Read the bounds from the current elements. -/
def load (s : Walk) : Walk :=
  { s with curLow := s.cur.getLow, curHigh := s.cur.getHigh,
           otherLow := s.otherCur.getLow, otherHigh := s.otherCur.getHigh }

/-- The second half of the end of an iteration. -/
def advanceOther (k : WalkKind) (s : Walk) (skipOtherCur : Bool) : Progress :=
  if skipOtherCur then
    match s.otherNext with
    | [] => .exit s.result
    | e :: otherNext =>
      match e.asConstraint k.otherWidth with
      | none => .nullDereference
      | some otherCur =>
        .again { s with otherCur := otherCur, otherNext := otherNext,
                        otherLow := otherCur.getLow, otherHigh := otherCur.getHigh }
  else .again s

/-- The end of an iteration. -/
def advance (k : WalkKind) (s : Walk) (skipCur skipOtherCur : Bool) : Progress :=
  if skipCur then
    match s.next with
    | [] => .exit s.result
    | e :: next =>
      match e.asConstraint k.curWidth with
      | none => .nullDereference
      | some cur =>
        advanceOther k { s with cur := cur, next := next, curLow := cur.getLow,
                                curHigh := cur.getHigh } skipOtherCur
  else advanceOther k s skipOtherCur

/-- The bounds that the body of the loop works on. -/
def atTop (k : WalkKind) (s : Walk) : Walk := if k.reload then s.load else s

/-- The body of the loop, after the bounds have been read. -/
def body (k : WalkKind) (s : Walk) : Progress :=
  if s.curHigh < s.otherLow then s.advance k true false
  else if s.otherHigh < s.curLow then s.advance k false true
  else
    let resultLow := k.curWidth.wrap (if s.curLow > s.otherLow then s.curLow else s.otherLow)
    let resultHigh := k.curWidth.wrap (if s.curHigh < s.otherHigh then s.curHigh else s.otherHigh)
    let result := s.result ++ [rangeCreate k.curWidth resultLow resultHigh]
    if resultHigh = k.curWidth.maxSigned then .exit result
    else
      let curLow := k.curWidth.wrap (resultHigh + 1)
      let otherLow := k.otherWidth.wrap (resultHigh + 1)
      advance k { s with result := result, curLow := curLow, otherLow := otherLow }
        (decide (curLow > s.curHigh)) (decide (otherLow > s.otherHigh))

/-- The loop, for at most `fuel` iterations. -/
def run (k : WalkKind) : ℕ → Walk → Outcome (List (Option VPSimple))
  | 0, _ => .unfinished
  | fuel + 1, s =>
    match (s.atTop k).body k with
    | .again s => run k fuel s
    | .exit result => .done result
    | .nullDereference => .nullDereference

end Walk

namespace VPMergedConstraints

/-- The end of the three list intersections. -/
def finish (result : List (Option VPSimple)) : Outcome (Option VPConstraint) :=
  match result with
  | [] => .done none
  | result => collapse (result.map (Option.map Entry.simple))

/-- A list intersection of one kind, from the first elements on. The copy that
reads the bounds inside the loop tests the first element before it reads it. -/
def walkFrom (k : WalkKind) (fuel : ℕ) (constraints : List Entry) (otherCur : VPSimple)
    (otherNext : List Entry) : Outcome (Option VPConstraint) :=
  match constraints with
  | [] => .nullDereference
  | e :: next =>
    match e.asConstraint k.curWidth with
    | none => if k.reload then .done none else .nullDereference
    | some cur => (Walk.run k fuel (Walk.start cur next otherCur otherNext)).bind finish

def shortIntersect (fuel : ℕ) (constraints : List Entry) (other : Entry) (otherNext : List Entry) :
    Outcome (Option VPConstraint) :=
  match other.asConstraint .short with
  | some otherCur => walkFrom ⟨.short, .short, false⟩ fuel constraints otherCur otherNext
  | none => .done none

/-- For a 64-bit operand the bounds are read again at the top of every
iteration. -/
def intIntersect (fuel : ℕ) (constraints : List Entry) (other : Entry) (otherNext : List Entry) :
    Outcome (Option VPConstraint) :=
  match other.asConstraint .int with
  | some otherCur => walkFrom ⟨.int, .int, false⟩ fuel constraints otherCur otherNext
  | none =>
    match other.asConstraint .long with
    | some otherCur => walkFrom ⟨.int, .long, true⟩ fuel constraints otherCur otherNext
    | none => .done none

def longIntersect (fuel : ℕ) (constraints : List Entry) (other : Entry) (otherNext : List Entry) :
    Outcome (Option VPConstraint) :=
  match other.asConstraint .long with
  | some otherCur => walkFrom ⟨.long, .long, false⟩ fuel constraints otherCur otherNext
  | none =>
    match other.asConstraint .int with
    | some otherCur => walkFrom ⟨.long, .int, false⟩ fuel constraints otherCur otherNext
    | none => .done none

/-- `VPMergedConstraints::intersect1`. -/
def intersect1 (fuel : ℕ) (constraints : List Entry) (other : VPConstraint) :
    Outcome (Option VPConstraint) :=
  let call (otherCur : Entry) (otherNext : List Entry) :=
    match VPConstraint.mergedType constraints with
    | .short => shortIntersect fuel constraints otherCur otherNext
    | .int => intIntersect fuel constraints otherCur otherNext
    | .long => longIntersect fuel constraints otherCur otherNext
  match other with
  | .simple s => call (.simple s) []
  | .merged [] => .nullDereference
  | .merged (e :: otherNext) => call e otherNext

end VPMergedConstraints

namespace VPConstraint

/-- `MergedConstraintPriority`, or the priority of the width. -/
def priority : VPConstraint → ℕ
  | simple s => s.width.priority
  | merged _ => 15

/-- The virtual function `intersect1`. -/
def intersect1 (fuel : ℕ) (this other : VPConstraint) : Outcome (Option VPConstraint) :=
  match this, other with
  | simple s, simple t => .done ((s.intersect1 t).map simple)
  | simple _, merged _ => .done none
  | merged es, other => VPMergedConstraints.intersect1 fuel es other

/-- `VPConstraint::intersect`, whose loops may take `fuel` iterations. -/
def intersect (fuel : ℕ) (this other : VPConstraint) : Outcome (Option VPConstraint) :=
  if this = other then .done (some this)
  else if other.priority > this.priority then other.intersect1 fuel this
  else this.intersect1 fuel other

end VPConstraint

end OMR.Compiler
