import Mathlib.Tactic
import Mathlib.Data.List.GetD

/-!
# Segments of a sparse bit vector

`ASparseBitVector` of `sparsrbit.h` keeps, for every value of the upper half of an index, the lower
halves in a sorted array of 16-bit numbers. A segment is modelled by the values in its array and
the size of the array; a write at or behind that size gives `none`.
-/

namespace OMR.Compiler.SparseBitVector

def kSegmentMask : ℕ := 0xFFFF

structure Segment where
  fSize : ℕ
  fHighBits : ℕ
  values : List ℕ
deriving DecidableEq, Repr

/-- `FloorPowerOfTwo`. -/
def floorPowerOfTwo (n : ℕ) : ℕ := 2 ^ Nat.log2 n

/-- The linear end of `FindIndex`. -/
def findIndexLinear (indices : List ℕ) (search high : ℕ) : (fuel low : ℕ) → ℕ
  | 0, low => low
  | fuel + 1, low =>
    if low < high ∧ indices.getD low 0 < search then
      findIndexLinear indices search high fuel (low + 1)
    else low

/-- The binary search of `FindIndex`. -/
def findIndexLoop (indices : List ℕ) (search : ℕ) : (fuel low high : ℕ) → ℕ
  | 0, low, _ => low
  | fuel + 1, low, high =>
    if high - low > 16 then
      let mid := (high + low) / 2
      if search < indices.getD mid 0 then findIndexLoop indices search fuel low mid
      else if search > indices.getD mid 0 then findIndexLoop indices search fuel mid high
      else mid
    else findIndexLinear indices search high (high - low) low

/-- `FindIndex`. -/
def findIndex (indices : List ℕ) (search low high : ℕ) : ℕ :=
  let high := if high = 0 then indices.length - 1 else high
  if search ≤ indices.getD low 0 then low
  else if search = indices.getD high 0 then high
  else if search > indices.getD high 0 then high + 1
  else findIndexLoop indices search (high - low + 1) low high

/-- The linear end of `AdvanceIndex`, four elements a round. -/
def advanceIndexLinear (indices : List ℕ) (search high : ℕ) : (fuel low : ℕ) → ℕ
  | 0, low => low
  | fuel + 1, low =>
    if low + 3 ≤ high then
      if indices.getD low 0 ≥ search then low
      else if indices.getD (low + 1) 0 ≥ search then low + 1
      else if indices.getD (low + 2) 0 ≥ search then low + 2
      else if indices.getD (low + 3) 0 ≥ search then low + 3
      else advanceIndexLinear indices search high fuel (low + 4)
    else if low > high ∨ indices.getD low 0 ≥ search then low
    else if low + 1 > high ∨ indices.getD (low + 1) 0 ≥ search then low + 1
    else if low + 2 > high ∨ indices.getD (low + 2) 0 ≥ search then low + 2
    else low + 3

/-- The binary search of `AdvanceIndex`, with its range trimmed by the distance to the value. -/
def advanceIndexLoop (indices : List ℕ) (search : ℕ) : (fuel low high : ℕ) → ℕ
  | 0, low, _ => low
  | fuel + 1, low, high =>
    if high - low > 128 then
      let mid := (high + low) / 2
      let value := indices.getD mid 0
      if value = search then mid
      else if value > search then advanceIndexLoop indices search fuel low mid
      else advanceIndexLoop indices search fuel mid (min high (search - value + mid))
    else advanceIndexLinear indices search high (high + 1 - low) low

/-- `AdvanceIndex`. -/
def advanceIndex (indices : List ℕ) (search low high : ℕ) : ℕ :=
  let high := if high = 0 then indices.length - 1 else high
  if search ≥ indices.getD high 0 then
    if search = indices.getD high 0 then high else high + 1
  else
    let value := indices.getD low 0
    if search ≤ value then low
    else
      let high := min high (search - value + low)
      advanceIndexLoop indices search (high - low + 1) low high

namespace Segment

/-- `HighBits`. -/
def highBits (s : Segment) : ℕ := s.fHighBits <<< 16

/-- `IsZero`. -/
def isZero (s : Segment) : Bool := s.values.isEmpty

/-- `PopulationCount`. -/
def populationCount (s : Segment) : ℕ := s.values.length

/-- `FirstOne`. -/
def firstOne (s : Segment) : ℕ := s.highBits + s.values.getD 0 0

/-- `LastOne`. -/
def lastOne (s : Segment) : ℕ := s.highBits + s.values.getD (s.populationCount - 1) 0

/-- `append`, with 16-bit positions. -/
def append (thisSegment s : Segment) (fromIndex toIndex : ℕ) : Option Segment :=
  let fromIndex := fromIndex % 2 ^ 16
  let toIndex := toIndex % 2 ^ 16
  if fromIndex ≤ toIndex ∧
      thisSegment.populationCount + (toIndex - fromIndex) ≤ thisSegment.fSize then
    some { thisSegment with
      values := thisSegment.values ++ (s.values.take toIndex).drop fromIndex }
  else none

end Segment

/-- `ValueAtSegment`. -/
def valueAtSegment (thisSegment : Segment) (i : ℕ) : ℕ :=
  if i < thisSegment.populationCount then thisSegment.highBits ||| thisSegment.values.getD i 0
  else 0

/-- `GetSegment`. -/
def getSegment (thisSegment : Segment) (bit : ℕ) : Bool :=
  let t := findIndex thisSegment.values (bit % 2 ^ 16) 0 0
  if t < thisSegment.populationCount then bit % 2 ^ 16 = thisSegment.values.getD t 0 else false

/-- `GrowSegment`. -/
def growSegment (thisSegment : Segment) (size numValues : ℕ) : Segment :=
  let size :=
    if numValues > 0 then
      if numValues ≤ 1024 then 2 * floorPowerOfTwo (numValues - 1)
      else 1024 + 1024 * ((numValues - 1) / 1024)
    else size
  if thisSegment.fSize > size then thisSegment
  else
    let size := if size > kSegmentMask then kSegmentMask else size
    -- the first allocation forgets the values
    if thisSegment.fSize = 0 then { thisSegment with fSize := size, values := [] }
    else { thisSegment with fSize := size }

/-- `SetSegment`. -/
def setSegment (thisSegment : Segment) (bit : ℕ) : Option Segment :=
  let t := findIndex thisSegment.values (bit % 2 ^ 16) 0 0
  if t < thisSegment.populationCount ∧ bit = valueAtSegment thisSegment t then some thisSegment
  else
    let thisSegment :=
      if thisSegment.fSize = thisSegment.populationCount then
        growSegment thisSegment thisSegment.fSize (thisSegment.populationCount + 1)
      else thisSegment
    if thisSegment.populationCount < thisSegment.fSize then
      some { thisSegment with values := thisSegment.values.insertIdx t (bit % 2 ^ 16) }
    else none

/-- The bytes that `CopySegment` copies: as many as the input has values, of two bytes each. What
is not copied stays, and the number of values as well. -/
def copySegment (thisSegment inputSegment : Segment) : Segment :=
  { thisSegment with
    fSize := inputSegment.populationCount % 2 ^ 16
    values := thisSegment.values.mapIdx fun i value =>
      if 2 * i + 1 < inputSegment.populationCount then inputSegment.values.getD i 0
      else if 2 * i < inputSegment.populationCount then
        value / 2 ^ 8 * 2 ^ 8 + inputSegment.values.getD i 0 % 2 ^ 8
      else value }

/-- The loop of `OrSegment`, up to the values that are left of `thisSegment`. -/
def orSegmentLoop (thisSegment inputSegment : Segment) (toAllocate : ℕ) :
    (fuel i0 i ii : ℕ) → Segment → Option (ℕ × Segment)
  | 0, i0, _, _, tmpSegment => some (i0, tmpSegment)
  | fuel + 1, i0, i, ii, tmpSegment =>
    if ii < inputSegment.populationCount then
      let value := inputSegment.values.getD ii 0
      let i := advanceIndex thisSegment.values value i 0
      if i < thisSegment.populationCount ∧ thisSegment.values.getD i 0 = value then
        orSegmentLoop thisSegment inputSegment toAllocate fuel i0 i (ii + 1) tmpSegment
      else
        let tmpSegment :=
          if tmpSegment.isZero then
            { growSegment tmpSegment thisSegment.fSize toAllocate with
              fHighBits := thisSegment.fHighBits }
          else tmpSegment
        (tmpSegment.append thisSegment i0 i).bind fun tmpSegment =>
          let ii' :=
            if i = thisSegment.populationCount then inputSegment.populationCount
            else advanceIndex inputSegment.values (thisSegment.values.getD i 0) ii 0
          (tmpSegment.append inputSegment ii ii').bind fun tmpSegment =>
            orSegmentLoop thisSegment inputSegment toAllocate fuel i i ii' tmpSegment
    else some (i0, tmpSegment)

/-- `OrSegment`, with the new output and whether there was something to add. In place,
`outputSegment` is `thisSegment`. -/
def orSegment (thisSegment inputSegment outputSegment : Segment) (isInplace : Bool) :
    Option (Segment × Bool) :=
  if inputSegment.isZero then
    some (if isInplace then outputSegment else copySegment outputSegment thisSegment, false)
  else if thisSegment.isZero then some (copySegment outputSegment inputSegment, true)
  else
    let toAllocate := thisSegment.populationCount + inputSegment.populationCount
    let toAllocate := if toAllocate > kSegmentMask then kSegmentMask + 1 else toAllocate
    let tmpSegment : Segment := ⟨0, 0, []⟩
    if isInplace ∧ thisSegment.lastOne < inputSegment.firstOne then
      let tmpSegment := { growSegment tmpSegment thisSegment.fSize toAllocate with
        fHighBits := thisSegment.fHighBits }
      (tmpSegment.append thisSegment 0 thisSegment.populationCount).bind fun tmpSegment =>
        (tmpSegment.append inputSegment 0 inputSegment.populationCount).map fun tmpSegment =>
          (tmpSegment, true)
    else
      (orSegmentLoop thisSegment inputSegment toAllocate inputSegment.populationCount 0 0 0
        tmpSegment).bind fun (i0, tmpSegment) =>
        if tmpSegment.isZero then
          some (if isInplace then outputSegment else copySegment outputSegment thisSegment, false)
        else
          (tmpSegment.append thisSegment i0 thisSegment.populationCount).map fun tmpSegment =>
            (tmpSegment, true)

end OMR.Compiler.SparseBitVector
