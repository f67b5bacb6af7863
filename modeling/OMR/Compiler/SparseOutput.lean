import OMR.Compiler.SparseSettings

/-!
# Sparse bit vectors with an output vector

`And`, `Andc` and `Or` with an output vector go over the segments of the vector, look up the
segment of the input with the same upper half, and add one to the output. The vector and the
input are constant.
-/

namespace OMR.Compiler.SparseBitVector

/-- The loop of `AndSegment` with an output. -/
def andIndices (fSize : ℕ) : (thisIndices inputIndices out : List ℕ) → Bool →
    Option (List ℕ × Bool)
  | [], _, out, changed => some (out, changed)
  | value :: rest, inputIndices, out, changed =>
    match inputIndices.dropWhile (· < value) with
    | [] => some (out, true)
    | inputValue :: inputRest =>
      if inputValue = value then
        if out.length < fSize then
          andIndices fSize rest (inputValue :: inputRest) (out ++ [value]) changed
        else none
      else andIndices fSize rest (inputValue :: inputRest) out true

/-- The loop of `AndcSegment` with an output. -/
def andcIndices (fSize : ℕ) : (thisIndices inputIndices out : List ℕ) → Bool →
    Option (List ℕ × Bool)
  | [], _, out, changed => some (out, changed)
  | value :: rest, inputIndices, out, changed =>
    let inputIndices := inputIndices.dropWhile (· < value)
    if inputIndices.head? ≠ some value then
      if out.length < fSize then
        andcIndices fSize rest inputIndices (out ++ [value]) changed
      else none
    else andcIndices fSize rest inputIndices out true

/-- The end of both: `CompactSegment` or `TruncateSegment`. -/
def finishSegment (outputSegment : Segment) (out : List ℕ) : Segment :=
  if out.length > 0 then { outputSegment with fSize := out.length % 2 ^ 16, values := out }
  else { outputSegment with values := [] }

/-- `AndSegment` with an output. -/
def andSegmentTo (thisSegment inputSegment outputSegment : Segment) : Option (Segment × Bool) :=
  if thisSegment.isZero then some ({ outputSegment with values := [] }, false)
  else if inputSegment.isZero then some ({ outputSegment with values := [] }, true)
  else
    let outputSegment := growSegment outputSegment thisSegment.populationCount 0
    (andIndices outputSegment.fSize thisSegment.values inputSegment.values [] false).map
      fun r => (finishSegment outputSegment r.1, r.2)

/-- `AndcSegment` with an output. -/
def andcSegmentTo (thisSegment inputSegment outputSegment : Segment) : Option (Segment × Bool) :=
  if thisSegment.isZero || inputSegment.isZero then
    some (copySegment outputSegment thisSegment, false)
  else
    let outputSegment := growSegment outputSegment thisSegment.populationCount 0
    (andcIndices outputSegment.fSize thisSegment.values inputSegment.values [] false).map
      fun r => (finishSegment outputSegment r.1, r.2)

/-- `OrSegment` with an output. -/
def orSegmentTo (thisSegment inputSegment outputSegment : Segment) : Option (Segment × Bool) :=
  orSegment thisSegment inputSegment outputSegment false

/-- The segment that `AddSegment` returns. -/
def addedSegment (high count : ℕ) (v : List Segment) : Segment :=
  match findSegment high v with
  | some s => growSegment s count 0
  | none => ⟨count % 2 ^ 16, high, []⟩

/-- `RemoveSegment`. -/
def removeSegment (high : ℕ) : List Segment → List Segment
  | [] => []
  | s :: rest =>
    if s.fHighBits ≥ high then if s.fHighBits = high then rest else s :: rest
    else s :: removeSegment high rest

/-- The loop that the three operations share. Only `And` skips a segment without one in the input,
and only `Or` keeps a segment without values. -/
def outputLoop (both : Segment → Segment → Segment → Option (Segment × Bool))
    (copyMissing removeZero : Bool) (inputVector : List Segment) :
    List Segment → List Segment → Bool → Option (List Segment × Bool)
  | [], outputVector, changed => some (outputVector, changed)
  | s :: rest, outputVector, changed =>
    match findSegment s.fHighBits inputVector with
    | none =>
      if copyMissing then
        (addSegment s.fHighBits s.populationCount (writeValues s.values) outputVector).bind
          fun outputVector =>
            outputLoop both copyMissing removeZero inputVector rest outputVector changed
      else outputLoop both copyMissing removeZero inputVector rest outputVector changed
    | some is =>
      (both s is (addedSegment s.fHighBits s.populationCount outputVector)).bind fun r =>
        (addSegment s.fHighBits s.populationCount (fun _ => some r.1) outputVector).bind
          fun outputVector =>
            let outputVector :=
              if removeZero && r.1.isZero then removeSegment s.fHighBits outputVector
              else outputVector
            outputLoop both copyMissing removeZero inputVector rest outputVector (r.2 || changed)

/-- The second loop of `Or`. -/
def orMissing (thisVector : List Segment) :
    List Segment → List Segment → Bool → Option (List Segment × Bool)
  | [], outputVector, changed => some (outputVector, changed)
  | is :: rest, outputVector, changed =>
    match findSegment is.fHighBits thisVector with
    | none =>
      (addSegment is.fHighBits is.populationCount (writeValues is.values) outputVector).bind
        fun outputVector => orMissing thisVector rest outputVector true
    | some _ => orMissing thisVector rest outputVector changed

/-- `Clear`. -/
def clear (_ : List Segment) : List Segment := []

/-- `operator=`. -/
def assign (outputVector vector : List Segment) : List Segment :=
  clear outputVector ++
    vector.map fun s => ⟨s.populationCount % 2 ^ 16, s.fHighBits, s.values⟩

/-- `And` with an output. -/
def andTo (thisVector inputVector outputVector : List Segment) :
    Option (List Segment × Bool) :=
  if thisVector.isEmpty then some (clear outputVector, false)
  else outputLoop andSegmentTo false true inputVector thisVector (clear outputVector) false

/-- `Andc` with an output. -/
def andcTo (thisVector inputVector outputVector : List Segment) :
    Option (List Segment × Bool) :=
  if thisVector.isEmpty || inputVector.isEmpty then some (assign outputVector thisVector, false)
  else outputLoop andcSegmentTo true true inputVector thisVector (clear outputVector) false

/-- `Or` with an output. -/
def orTo (thisVector inputVector outputVector : List Segment) :
    Option (List Segment × Bool) :=
  if inputVector.isEmpty then some (assign outputVector thisVector, false)
  else if thisVector.isEmpty then some (assign outputVector inputVector, true)
  else
    (outputLoop orSegmentTo true false inputVector thisVector (clear outputVector) false).bind
      fun r => orMissing thisVector inputVector r.1 r.2

/-- The output is a vector and has the members that it should have. -/
def IsOutput (keep : ℕ → ℕ → Prop) (result : Option (List Segment × Bool)) : Prop :=
  ∃ r, result = some r ∧ Ordered r.1 ∧ ∀ high low, Member r.1 high low ↔ keep high low

end OMR.Compiler.SparseBitVector
