import OMR.Compiler.VPCompare

/-!
# Merging numeric constraints

`VPConstraint::merge` with the `merge1` of constants and ranges, and the loops of
`VPMergedConstraints::shortMerge`, `intMerge` and `longMerge`. The five copies of
the loop are one definition; `MergeKind` says in what they differ.
-/

namespace OMR.Compiler

open OMR.Lib

namespace VPSimple

/-- The same-width branch of `merge1` once the operand with the smaller lower
bound comes first. Two separate 16-bit ranges are given up. -/
def mergeOrdered (this other : VPSimple) : Option Entry :=
  if other.getHigh ≤ this.getHigh then some (.simple this)
  else if other.getLow ≤ this.width.plusOne this.getHigh then
    if this.getLow = this.width.minSigned ∧ other.getHigh = this.width.maxSigned then none
    else (rangeCreate this.width this.getLow other.getHigh).map .simple
  else
    match this.width with
    | .short => none
    | _ => some (.list [this, other])

/-- The same-width branch of `merge1`. The call with the operands exchanged does
not exchange them again. -/
def mergeSame (this other : VPSimple) : Option Entry :=
  if other.getLow < this.getLow then other.mergeOrdered this else this.mergeOrdered other

/-- `VPMergedConstraints::create` for two elements. Only the first of them is
dereferenced; the second one is never `NULL` where the source calls it. -/
def createPair (first second : Option VPSimple) : Outcome (Option Entry) :=
  match first, second with
  | some s, some t => .done (some (.list [s, t]))
  | _, _ => .nullDereference

/-- The branch of `VPIntConstraint::merge1` for a 64-bit operand. The upper bound
is incremented at 32 bits. -/
def intMerge1Long (this other : VPSimple) : Outcome (Option Entry) :=
  if other.getLow < Width.int.minSigned ∨ other.getHigh > Width.int.maxSigned then .done none
  else
    let lowVal := if other.getLow < this.getLow then other.getLow else this.getLow
    let highVal := if other.getHigh ≤ this.getHigh then this.getHigh else other.getHigh
    if other.getLow ≤ Width.int.wrap (this.getHigh + 1) then
      if this.getLow = Width.int.minSigned ∧ other.getHigh = Width.int.maxSigned then .done none
      else .done ((VPIntRange.create (Width.int.wrap lowVal) (Width.int.wrap highVal)).map .simple)
    else
      let otherInt := VPIntRange.create (Width.int.wrap other.getLow) (Width.int.wrap other.getHigh)
      if other.getLow < this.getLow then createPair otherInt (some this)
      else createPair (some this) otherInt

/-- `merge1` of `VPShortConstraint`, `VPIntConstraint` and `VPLongConstraint`. The
branch of `VPLongConstraint::merge1` for a 32-bit operand reads the upper bound
through the `NULL` pointer `otherLong`; no caller gets there. -/
def merge1 (this other : VPSimple) : Outcome (Option Entry) :=
  match this.width, other.width with
  | .short, .short => .done (this.mergeSame other)
  | .int, .int => .done (this.mergeSame other)
  | .long, .long => .done (this.mergeSame other)
  | .int, .long => this.intMerge1Long other
  | .long, .int => .nullDereference
  | _, _ => .done none

/-- `VPConstraint::merge` for constants and ranges. -/
def merge (this other : VPSimple) : Outcome (Option Entry) :=
  if this = other then .done (some (.simple this))
  else if other.width.priority > this.width.priority then other.merge1 this
  else this.merge1 other

end VPSimple

/-- What tells the copies of the loop apart: the widths of the two lists, and
whether the loop asks if the last result is a constraint of its width. -/
structure MergeKind where
  curWidth : Width
  otherWidth : Width
  checksLast : Bool

/-- The list `result` with the position `lastResultEntry`: the elements up to it,
last one first, and those after it. -/
structure ResultList where
  upTo : List (Option Entry)
  after : List (Option Entry)

namespace ResultList

def empty : ResultList := ⟨[], []⟩

/-- `result.add`, which puts the element in front of all others. -/
def add (res : ResultList) (e : Option Entry) : ResultList := ⟨[e], res.upTo.reverse ++ res.after⟩

/-- `result.addAfter`. -/
def addAfter (res : ResultList) (e : Option Entry) : ResultList := ⟨e :: res.upTo, res.after⟩

/-- `lastResultEntry->setData`. -/
def setData (res : ResultList) (e : Option Entry) : ResultList := ⟨e :: res.upTo.tail, res.after⟩

def toList (res : ResultList) : List (Option Entry) := res.upTo.reverse ++ res.after

end ResultList

namespace MergeKind

/-- The element of the result that an element of the other list becomes, or none
if the whole merge is given up. -/
def entryOf (k : MergeKind) (other : VPSimple) : Option (Option Entry) :=
  match k.curWidth, k.otherWidth with
  | .int, .long =>
    if other.getLow < Width.int.minSigned ∨ other.getHigh > Width.int.maxSigned then none
    else some ((VPIntRange.create (Width.int.wrap other.getLow) (Width.int.wrap other.getHigh)).map
      .simple)
  | .long, .int => some ((VPLongRange.create other.getLow other.getHigh).map .simple)
  | _, _ => some (some (.simple other))

/-- The merge of the last result with an element of the other list. -/
def mergeOther (k : MergeKind) (lastResult other : VPSimple) : Outcome (Option Entry) :=
  match k.curWidth, k.otherWidth with
  | .long, .int =>
    match VPLongRange.create other.getLow other.getHigh with
    | some otherCurLong => lastResult.merge otherCurLong
    | none => .nullDereference
  | _, _ => lastResult.merge other

/-- Put an element into the result, merging it with the last one if the two meet
or touch. No result stands for `return NULL`. -/
def put (k : MergeKind) (res : ResultList) (low : ℤ) (entry : Option (Option Entry))
    (mergeLast : VPSimple → Outcome (Option Entry)) : Outcome (Option ResultList) :=
  match res.upTo with
  | [] => .done (entry.map res.add)
  | none :: _ => .nullDereference
  | some e :: _ =>
    match e.asConstraint k.curWidth with
    | none => if k.checksLast then .done (entry.map res.add) else .nullDereference
    | some lastResult =>
      if lastResult.getHigh = k.curWidth.maxSigned ∨ low ≤ lastResult.getHigh + 1 then
        (mergeLast lastResult).bind fun r => .done (r.map fun e => res.setData (some e))
      else .done (entry.map res.addAfter)

/-- An iteration that takes the current element. -/
def takeCur (k : MergeKind) (res : ResultList) (cur : VPSimple) : Outcome (Option ResultList) :=
  k.put res cur.getLow (some (some (.simple cur))) fun lastResult => lastResult.merge cur

/-- An iteration that takes the current element of the other list. -/
def takeOther (k : MergeKind) (res : ResultList) (otherCur : VPSimple) :
    Outcome (Option ResultList) :=
  k.put res otherCur.getLow (k.entryOf otherCur) fun lastResult => k.mergeOther lastResult otherCur

end MergeKind

/-- The next element of a list, and what is after it. -/
def advance (w : Width) : List Entry → Option VPSimple × List Entry
  | [] => (none, [])
  | e :: next => (e.asConstraint w, next)

/-- The number of elements that a cursor has before it. -/
def ahead (cur : Option VPSimple) (next : List Entry) : ℕ :=
  next.length + cur.toList.length

theorem ahead_advance_lt (w : Width) (c : VPSimple) (next : List Entry) :
    ahead (advance w next).1 (advance w next).2 < ahead (some c) next := by
  cases next with
  | nil => simp [ahead, advance]
  | cons e next =>
    cases h : e.asConstraint w <;> simp [ahead, advance, h]

/-- The loop: take the element with the smaller lower bound until both lists are
used up. -/
def mergeLoop (k : MergeKind) (cur : Option VPSimple) (next : List Entry)
    (otherCur : Option VPSimple) (otherNext : List Entry) (res : ResultList) :
    Outcome (Option ResultList) :=
  match cur, otherCur with
  | none, none => .done (some res)
  | some c, none =>
    (k.takeCur res c).bind fun
      | none => .done none
      | some res =>
        mergeLoop k (advance k.curWidth next).1 (advance k.curWidth next).2 none otherNext res
  | none, some o =>
    (k.takeOther res o).bind fun
      | none => .done none
      | some res => mergeLoop k none next (advance k.otherWidth otherNext).1
          (advance k.otherWidth otherNext).2 res
  | some c, some o =>
    if c.getLow ≤ o.getLow then
      (k.takeCur res c).bind fun
        | none => .done none
        | some res => mergeLoop k (advance k.curWidth next).1 (advance k.curWidth next).2
            (some o) otherNext res
    else
      (k.takeOther res o).bind fun
        | none => .done none
        | some res => mergeLoop k (some c) next (advance k.otherWidth otherNext).1
            (advance k.otherWidth otherNext).2 res
termination_by ahead cur next + ahead otherCur otherNext
decreasing_by
  · have := ahead_advance_lt k.curWidth c next
    omega
  · have := ahead_advance_lt k.otherWidth o otherNext
    omega
  · have := ahead_advance_lt k.curWidth c next
    omega
  · have := ahead_advance_lt k.otherWidth o otherNext
    omega

namespace VPMergedConstraints

/-- The end of the list merges. -/
def finishMerge : Option ResultList → Outcome (Option VPConstraint)
  | none => .done none
  | some res =>
    match res.toList with
    | [] => .nullDereference
    | l => collapse l

/-- A list merge of one kind, from the first elements on. -/
def mergeFrom (k : MergeKind) (constraints : List Entry) (otherCur : VPSimple)
    (otherNext : List Entry) : Outcome (Option VPConstraint) :=
  match constraints with
  | [] => .nullDereference
  | e :: next =>
    (mergeLoop k (e.asConstraint k.curWidth) next (some otherCur) otherNext .empty).bind finishMerge

def shortMerge (constraints : List Entry) (other : Entry) (otherNext : List Entry) :
    Outcome (Option VPConstraint) :=
  match other.asConstraint .short with
  | some otherCur => mergeFrom ⟨.short, .short, true⟩ constraints otherCur otherNext
  | none => .done none

def intMerge (constraints : List Entry) (other : Entry) (otherNext : List Entry) :
    Outcome (Option VPConstraint) :=
  match other.asConstraint .int with
  | some otherCur => mergeFrom ⟨.int, .int, true⟩ constraints otherCur otherNext
  | none =>
    match other.asConstraint .long with
    | some otherCur => mergeFrom ⟨.int, .long, false⟩ constraints otherCur otherNext
    | none => .done none

def longMerge (constraints : List Entry) (other : Entry) (otherNext : List Entry) :
    Outcome (Option VPConstraint) :=
  match other.asConstraint .long with
  | some otherCur => mergeFrom ⟨.long, .long, false⟩ constraints otherCur otherNext
  | none =>
    match other.asConstraint .int with
    | some otherCur => mergeFrom ⟨.long, .int, false⟩ constraints otherCur otherNext
    | none => .done none

/-- `VPMergedConstraints::merge1`. -/
def merge1 (constraints : List Entry) (other : VPConstraint) : Outcome (Option VPConstraint) :=
  let call (otherCur : Entry) (otherNext : List Entry) :=
    match VPConstraint.mergedType constraints with
    | .short => shortMerge constraints otherCur otherNext
    | .int => intMerge constraints otherCur otherNext
    | .long => longMerge constraints otherCur otherNext
  match other with
  | .simple s => call (.simple s) []
  | .merged [] => .nullDereference
  | .merged (e :: otherNext) => call e otherNext

end VPMergedConstraints

namespace VPConstraint

/-- `VPConstraint::merge`: the constraint with the higher priority merges the
other one, and lists have the highest. -/
def merge (this other : VPConstraint) : Outcome (Option VPConstraint) :=
  match this, other with
  | .simple s, .simple t => (s.merge t).bind fun r => .done (r.map Entry.toConstraint)
  | .simple s, .merged es => VPMergedConstraints.merge1 es (.simple s)
  | .merged es, other =>
    if .merged es = other then .done (some (.merged es)) else VPMergedConstraints.merge1 es other

end VPConstraint

end OMR.Compiler
