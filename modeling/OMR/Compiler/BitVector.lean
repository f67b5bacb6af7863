import OMR.Lib.WordBits

/-!
# Bit vectors

`TR_BitVector` and `TR_BitVectorIterator`, for chunks of 32 and of 64 bits and for
both ways of numbering the bits of a chunk. The vectors are growable. Memory is a
function from chunk indices; what lies outside `_numChunks` is zero.

Bit indices have 64 bits in the source, except in the iterator and in the loop of
`setAll(n)`, where they have 32. `toInt32` stands where one of them is narrowed.
-/

namespace OMR.Compiler

open OMR.Lib

/-- The value of an integer at 32 bits. -/
def toInt32 (x : ℤ) : ℤ := x.bmod (2 ^ 32)

/-- What the preprocessor decides: `BITVECTOR_64BIT` and `BITVECTOR_BIT_NUMBERING_MSB`. -/
structure Layout where
  bitvector64bit : Bool
  bitNumberingMsb : Bool

namespace Layout

/-- `SHIFT`. -/
def shift (L : Layout) : ℕ := if L.bitvector64bit then 6 else 5

/-- `BITS_IN_CHUNK`. -/
def bitsInChunk (L : Layout) : ℕ := 2 ^ L.shift

/-- `chunk_t`. -/
abbrev Chunk (L : Layout) := BitVec L.bitsInChunk

def getChunkIndex (L : Layout) (bitIndex : ℤ) : ℤ := toInt32 (bitIndex / L.bitsInChunk)

def getIndexInChunk (L : Layout) (bitIndex : ℤ) : ℤ := bitIndex % L.bitsInChunk

def getBitIndex (L : Layout) (chunkIndex : ℤ) : ℤ := chunkIndex * L.bitsInChunk

/-- How far a mask with one bit is shifted for a bit index. -/
def position (L : Layout) (bitIndex : ℤ) : ℕ :=
  if L.bitNumberingMsb then L.bitsInChunk - 1 - (L.getIndexInChunk bitIndex).toNat
  else (L.getIndexInChunk bitIndex).toNat

/-- `getBitMask` of one index. -/
def getBitMask (L : Layout) (bitIndex : ℤ) : L.Chunk := 1#_ <<< L.position bitIndex

/-- `getBitMask` of the indices from `m` to `n`. -/
def getBitMasks (L : Layout) (m n : ℤ) : L.Chunk :=
  if L.bitNumberingMsb then (L.getBitMask m - 1#_) <<< 1 - L.getBitMask n + 2#_
  else (L.getBitMask n - 1#_) <<< 1 - L.getBitMask m + 2#_

def incrementBitMask (L : Layout) (mask : L.Chunk) : L.Chunk :=
  if L.bitNumberingMsb then mask >>> 1 else mask + mask

/-- A loop that puts the masks of bit indices into a chunk, one after the other. -/
def orMasks (L : Layout) (chunk : L.Chunk) (indices : List ℤ) : L.Chunk :=
  indices.foldl (fun c i => c ||| L.getBitMask i) chunk

end Layout

/-- The integers `lo`, .., `hi - 1` in this order. -/
def countUp (lo hi : ℤ) : List ℤ := (List.range (hi - lo).toNat).map fun k => lo + k

structure BitVector (L : Layout) where
  chunks : ℤ → L.Chunk
  numChunks : ℤ
  firstChunkWithNonZero : ℤ
  lastChunkWithNonZero : ℤ

namespace BitVector

variable {L : Layout}

/-- A loop over the chunks from `lo` to `hi` that changes each of them. -/
def onChunks (lo hi : ℤ) (f : ℤ → L.Chunk → L.Chunk) (chunks : ℤ → L.Chunk) : ℤ → L.Chunk :=
  fun i => if lo ≤ i ∧ i ≤ hi then f i (chunks i) else chunks i

/-- The first of `n` chunks from `low` on that is not zero, or the index after them. -/
def scanUp (chunks : ℤ → L.Chunk) (low : ℤ) : ℕ → ℤ
  | 0 => low
  | n + 1 => if chunks low = 0 then scanUp chunks (low + 1) n else low

/-- The loop that goes down from `high` to a chunk that is not zero, which is at most
`n` steps away. -/
def scanDown (chunks : ℤ → L.Chunk) (high : ℤ) : ℕ → ℤ
  | 0 => high
  | n + 1 => if chunks high = 0 then scanDown chunks (high - 1) n else high

/-- `TR_BitVector()`. -/
def new : BitVector L := ⟨fun _ => 0, 0, 0, -1⟩

/-- `TR_BitVector(initBits, ..)`. -/
def construct (initBits : ℤ) : BitVector L :=
  let numChunks := L.getChunkIndex (initBits - 1) + 1
  ⟨fun _ => 0, numChunks, numChunks, -1⟩

def setChunkSize (v : BitVector L) (chunkSize : ℤ) : BitVector L :=
  if chunkSize = v.numChunks then v
  else if chunkSize = 0 then new
  else
    let range : ℤ × ℤ :=
      if v.numChunks > chunkSize then
        if v.lastChunkWithNonZero < 0 then (chunkSize, v.lastChunkWithNonZero)
        else if v.firstChunkWithNonZero ≥ chunkSize then (chunkSize, -1)
        else if v.lastChunkWithNonZero ≥ chunkSize then
          (v.firstChunkWithNonZero,
            scanDown v.chunks (chunkSize - 1) (chunkSize - 1 - v.firstChunkWithNonZero).toNat)
        else (v.firstChunkWithNonZero, v.lastChunkWithNonZero)
      else
        (if v.lastChunkWithNonZero < 0 then chunkSize else v.firstChunkWithNonZero,
          v.lastChunkWithNonZero)
    let chunksToCopy := if chunkSize < v.numChunks then chunkSize else v.numChunks
    ⟨fun i => if i < chunksToCopy then v.chunks i else 0, chunkSize, range.1, range.2⟩

/-- The growth at the beginning of the operations that need a chunk. -/
def growFor (v : BitVector L) (chunkIndex : ℤ) : BitVector L :=
  if chunkIndex ≥ v.numChunks then v.setChunkSize (chunkIndex + 1) else v

/-- The growth at the beginning of the operations with a second vector. -/
def growTo (v : BitVector L) (v2Used : ℤ) : BitVector L :=
  if v.numChunks < v2Used then v.setChunkSize v2Used else v

def resetLowAndHighChunks (v : BitVector L) (low high : ℤ) : BitVector L :=
  let low := scanUp v.chunks low (high - low + 1).toNat
  if low > high then
    { v with firstChunkWithNonZero := v.numChunks, lastChunkWithNonZero := -1 }
  else
    { v with
      firstChunkWithNonZero := low
      lastChunkWithNonZero := scanDown v.chunks high (high - low).toNat }

def ensureBits (v : BitVector L) (n : ℤ) : BitVector L := v.growFor (L.getChunkIndex n)

def get (v : BitVector L) (n : ℤ) : Bool :=
  let chunkIndex := L.getChunkIndex n
  if chunkIndex > v.lastChunkWithNonZero then false
  else decide (v.chunks chunkIndex &&& L.getBitMask n ≠ 0)

def set (v : BitVector L) (n : ℤ) : BitVector L :=
  let chunkIndex := L.getChunkIndex n
  let v := v.growFor chunkIndex
  { v with
    firstChunkWithNonZero :=
      if chunkIndex < v.firstChunkWithNonZero then chunkIndex else v.firstChunkWithNonZero
    lastChunkWithNonZero :=
      if chunkIndex > v.lastChunkWithNonZero then chunkIndex else v.lastChunkWithNonZero
    chunks := onChunks chunkIndex chunkIndex (fun _ c => c ||| L.getBitMask n) v.chunks }

/-- The loop of `getHighestBitPosition` over the `n` lowest bit indices. -/
def highestBit (L : Layout) (chunk : L.Chunk) (chunkIndex : ℤ) : ℕ → ℤ
  | 0 => 0
  | n + 1 =>
    if chunk &&& L.getBitMask n ≠ 0 then L.getIndexInChunk n + L.getBitIndex chunkIndex
    else highestBit L chunk chunkIndex n

def getHighestBitPosition (v : BitVector L) : ℤ :=
  if v.lastChunkWithNonZero < 0 then 0
  else highestBit L (v.chunks v.lastChunkWithNonZero) v.lastChunkWithNonZero L.bitsInChunk

def reset (v : BitVector L) (n : ℤ) (updateLowHigh : Bool) : BitVector L :=
  let chunkIndex := L.getChunkIndex n
  if chunkIndex > v.lastChunkWithNonZero ∨ chunkIndex < v.firstChunkWithNonZero then v
  else if v.chunks chunkIndex ≠ 0 then
    let v := { v with
      chunks := onChunks chunkIndex chunkIndex (fun _ c => c &&& ~~~L.getBitMask n) v.chunks }
    if updateLowHigh ∧ v.chunks chunkIndex = 0 then
      v.resetLowAndHighChunks v.firstChunkWithNonZero v.lastChunkWithNonZero
    else v
  else v

def clear (v : BitVector L) (n : ℤ) : Bool × BitVector L :=
  let rc := v.get n
  (rc, if rc then v.reset n true else v)

def empty (v : BitVector L) : BitVector L :=
  { v with
    chunks := onChunks v.firstChunkWithNonZero v.lastChunkWithNonZero (fun _ _ => 0) v.chunks
    firstChunkWithNonZero := v.numChunks
    lastChunkWithNonZero := -1 }

/-- `operator=`. -/
def assign (v v2 : BitVector L) : BitVector L :=
  let v := v.growTo v2.numChunks
  let high := v2.lastChunkWithNonZero
  if high < 0 then v.empty
  else
    let low := v2.firstChunkWithNonZero
    let chunks := onChunks v.firstChunkWithNonZero (low - 1) (fun _ _ => 0) v.chunks
    let chunks := onChunks low high (fun i _ => v2.chunks i) chunks
    let chunks := onChunks (high + 1) v.lastChunkWithNonZero (fun _ _ => 0) chunks
    { v with chunks := chunks, firstChunkWithNonZero := low, lastChunkWithNonZero := high }

/-- `operator|=`. -/
def orAssign (v v2 : BitVector L) : BitVector L :=
  if v2.lastChunkWithNonZero < 0 then v
  else
    let v := v.growTo v2.numChunks
    { v with
      chunks := onChunks v2.firstChunkWithNonZero v2.lastChunkWithNonZero
        (fun i c => c ||| v2.chunks i) v.chunks
      firstChunkWithNonZero :=
        if v.firstChunkWithNonZero > v2.firstChunkWithNonZero then v2.firstChunkWithNonZero
        else v.firstChunkWithNonZero
      lastChunkWithNonZero :=
        if v.lastChunkWithNonZero < v2.lastChunkWithNonZero then v2.lastChunkWithNonZero
        else v.lastChunkWithNonZero }

/-- `operator&=`. -/
def andAssign (v v2 : BitVector L) : BitVector L :=
  if v.lastChunkWithNonZero < 0 then v
  else
    let low := v2.firstChunkWithNonZero
    let high := v2.lastChunkWithNonZero
    if high < v.firstChunkWithNonZero ∨ low > v.lastChunkWithNonZero then v.empty
    else
      let lower : ℤ × (ℤ → L.Chunk) :=
        if low < v.firstChunkWithNonZero then (v.firstChunkWithNonZero, v.chunks)
        else (low, onChunks v.firstChunkWithNonZero (low - 1) (fun _ _ => 0) v.chunks)
      let upper : ℤ × (ℤ → L.Chunk) :=
        if high > v.lastChunkWithNonZero then (v.lastChunkWithNonZero, lower.2)
        else (high, onChunks (high + 1) v.lastChunkWithNonZero (fun _ _ => 0) lower.2)
      let chunks := onChunks lower.1 upper.1 (fun i c => c &&& v2.chunks i) upper.2
      resetLowAndHighChunks { v with chunks := chunks } lower.1 upper.1

/-- The chunks that two vectors have in common, when they have some. -/
def commonChunks (v v2 : BitVector L) : ℤ × ℤ :=
  (if v2.firstChunkWithNonZero < v.firstChunkWithNonZero then v.firstChunkWithNonZero
    else v2.firstChunkWithNonZero,
  if v2.lastChunkWithNonZero > v.lastChunkWithNonZero then v.lastChunkWithNonZero
    else v2.lastChunkWithNonZero)

/-- A loop that looks for one of `n` chunks from `i` on. -/
def anyChunk (p : ℤ → Bool) (i : ℤ) : ℕ → Bool
  | 0 => false
  | n + 1 => if p i then true else anyChunk p (i + 1) n

def intersects (v v2 : BitVector L) : Bool :=
  if v.lastChunkWithNonZero < 0 then false
  else if v2.lastChunkWithNonZero < v.firstChunkWithNonZero ∨
      v2.firstChunkWithNonZero > v.lastChunkWithNonZero then false
  else
    let common := v.commonChunks v2
    anyChunk (fun i => decide (v.chunks i &&& v2.chunks i ≠ 0)) common.1
      (common.2 - common.1 + 1).toNat

/-- `operator-=`. -/
def subAssign (v v2 : BitVector L) : BitVector L :=
  if v.lastChunkWithNonZero < 0 then v
  else if v2.lastChunkWithNonZero < v.firstChunkWithNonZero ∨
      v2.firstChunkWithNonZero > v.lastChunkWithNonZero then v
  else
    let common := v.commonChunks v2
    let chunks := onChunks common.1 common.2 (fun i c => c &&& ~~~v2.chunks i) v.chunks
    resetLowAndHighChunks { v with chunks := chunks } v.firstChunkWithNonZero
      v.lastChunkWithNonZero

/-- `operator==`. -/
def equals (v v2 : BitVector L) : Bool :=
  if v.lastChunkWithNonZero ≠ v2.lastChunkWithNonZero then false
  else if v.lastChunkWithNonZero < 0 then true
  else if v.firstChunkWithNonZero ≠ v2.firstChunkWithNonZero then false
  else if v.lastChunkWithNonZero ≠ v2.lastChunkWithNonZero then false
  else
    !anyChunk (fun i => decide (v.chunks i ≠ v2.chunks i)) v.firstChunkWithNonZero
      (v.lastChunkWithNonZero - v.firstChunkWithNonZero + 1).toNat

/-- `setAll` of the first `n` elements. -/
def setAll (v : BitVector L) (n : ℤ) : BitVector L :=
  if n ≤ 0 then v
  else
    let chunkIndex := L.getChunkIndex (n - 1)
    let v := v.growFor chunkIndex
    let chunks := onChunks 0 (chunkIndex - 1) (fun _ _ => BitVec.allOnes _) v.chunks
    let chunks := onChunks chunkIndex chunkIndex
      (fun _ c => L.orMasks c (countUp (toInt32 (L.getBitIndex chunkIndex)) n)) chunks
    { v with
      chunks := chunks
      firstChunkWithNonZero := 0
      lastChunkWithNonZero :=
        if v.lastChunkWithNonZero < chunkIndex then chunkIndex else v.lastChunkWithNonZero }

/-- `setAll` of the elements `m` to `n`. -/
def setAllFrom (v : BitVector L) (m n : ℤ) : BitVector L :=
  let firstChunk := L.getChunkIndex m
  let lastChunk := L.getChunkIndex n
  let v := v.growFor lastChunk
  let v := { v with
    firstChunkWithNonZero :=
      if firstChunk < v.firstChunkWithNonZero then firstChunk else v.firstChunkWithNonZero
    lastChunkWithNonZero :=
      if v.lastChunkWithNonZero < lastChunk then lastChunk else v.lastChunkWithNonZero }
  let i := L.getIndexInChunk m
  let j := L.getIndexInChunk n
  if firstChunk = lastChunk then
    { v with
      chunks := onChunks firstChunk firstChunk (fun _ c => L.orMasks c (countUp i (j + 1)))
        v.chunks }
  else
    let chunks := onChunks firstChunk firstChunk
      (fun _ c => if i > 0 then L.orMasks c (countUp i L.bitsInChunk)
        else c ||| BitVec.allOnes _) v.chunks
    let chunks := onChunks lastChunk lastChunk
      (fun _ c => if j < L.bitsInChunk - 1 then L.orMasks c (countUp 0 (j + 1)).reverse
        else c ||| BitVec.allOnes _) chunks
    let chunks := onChunks (firstChunk + 1) (lastChunk - 1) (fun _ _ => BitVec.allOnes _) chunks
    { v with chunks := chunks }

def isEmpty (v : BitVector L) : Bool := decide (v.lastChunkWithNonZero < 0)

def numUsedChunks (v : BitVector L) : ℤ := v.lastChunkWithNonZero + 1

def pack (v : BitVector L) : BitVector L := v.setChunkSize v.numUsedChunks

end BitVector

/-- Number of bits set in a byte containing the index value. -/
def bitsInByte : List ℕ :=
  [0, 1, 1, 2, 1, 2, 2, 3, 1, 2, 2, 3, 2, 3, 3, 4,
   1, 2, 2, 3, 2, 3, 3, 4, 2, 3, 3, 4, 3, 4, 4, 5,
   1, 2, 2, 3, 2, 3, 3, 4, 2, 3, 3, 4, 3, 4, 4, 5,
   2, 3, 3, 4, 3, 4, 4, 5, 3, 4, 4, 5, 4, 5, 5, 6,
   1, 2, 2, 3, 2, 3, 3, 4, 2, 3, 3, 4, 3, 4, 4, 5,
   2, 3, 3, 4, 3, 4, 4, 5, 3, 4, 4, 5, 4, 5, 5, 6,
   2, 3, 3, 4, 3, 4, 4, 5, 3, 4, 4, 5, 4, 5, 5, 6,
   3, 4, 4, 5, 4, 5, 5, 6, 4, 5, 5, 6, 5, 6, 6, 7,
   1, 2, 2, 3, 2, 3, 3, 4, 2, 3, 3, 4, 3, 4, 4, 5,
   2, 3, 3, 4, 3, 4, 4, 5, 3, 4, 4, 5, 4, 5, 5, 6,
   2, 3, 3, 4, 3, 4, 4, 5, 3, 4, 4, 5, 4, 5, 5, 6,
   3, 4, 4, 5, 4, 5, 5, 6, 4, 5, 5, 6, 5, 6, 6, 7,
   2, 3, 3, 4, 3, 4, 4, 5, 3, 4, 4, 5, 4, 5, 5, 6,
   3, 4, 4, 5, 4, 5, 5, 6, 4, 5, 5, 6, 5, 6, 6, 7,
   3, 4, 4, 5, 4, 5, 5, 6, 4, 5, 5, 6, 5, 6, 6, 7,
   4, 5, 5, 6, 5, 6, 6, 7, 5, 6, 6, 7, 6, 7, 7, 8]

namespace BitVector

variable {L : Layout}

/-- What the counting loops add for a chunk: the bytes of one that is not zero. -/
def bitsInChunkBytes (L : Layout) (chunk : L.Chunk) : ℕ :=
  if chunk ≠ 0 then
    ((List.range (L.bitsInChunk / 8)).map fun k => bitsInByte.getD (byteOf chunk k).toNat 0).sum
  else 0

/-- The counting loop over `n` chunks from `i` on. -/
def countChunks (f : ℤ → ℕ) (count i : ℤ) : ℕ → ℤ
  | 0 => count
  | n + 1 => countChunks f (toInt32 (count + f i)) (i + 1) n

def elementCount (v : BitVector L) : ℤ :=
  countChunks (fun i => bitsInChunkBytes L (v.chunks i)) 0 v.firstChunkWithNonZero
    (v.lastChunkWithNonZero - v.firstChunkWithNonZero + 1).toNat

def commonElementCount (v v2 : BitVector L) : ℤ :=
  if v2.lastChunkWithNonZero < v.firstChunkWithNonZero ∨
      v2.firstChunkWithNonZero > v.lastChunkWithNonZero then 0
  else
    let common := v.commonChunks v2
    countChunks (fun i => bitsInChunkBytes L (v.chunks i &&& v2.chunks i)) 0 common.1
      (common.2 - common.1 + 1).toNat

def hasMoreThanOneElement (v : BitVector L) : Bool :=
  if v.firstChunkWithNonZero < v.lastChunkWithNonZero then true
  else if v.lastChunkWithNonZero < 0 then false
  else decide (((List.range (L.bitsInChunk / 8)).map fun k =>
    bitsInByte.getD (byteOf (v.chunks v.firstChunkWithNonZero) k).toNat 0).sum > 1)

/-! The iterator of a vector is its `_curIndex`. -/

/-- The last loop of `getNextBit`: at most `n` bits are passed. -/
def findBit (L : Layout) (chunk mask : L.Chunk) (curIndex : ℤ) : ℕ → ℤ
  | 0 => curIndex
  | n + 1 =>
    if chunk &&& mask = 0 then
      findBit L chunk (L.incrementBitMask mask) (toInt32 (curIndex + 1)) n
    else curIndex

def getNextBit (v : BitVector L) (curIndex : ℤ) : ℤ :=
  let curIndex := toInt32 (curIndex + 1)
  let curChunk := L.getChunkIndex curIndex
  let noMore := toInt32 (L.getBitIndex v.numChunks)
  if curChunk > v.lastChunkWithNonZero then noMore
  else if v.chunks curChunk = BitVec.allOnes _ then curIndex
  else
    let tmpChunk := v.chunks curChunk &&& L.getBitMasks curIndex (L.bitsInChunk - 1)
    if tmpChunk = 0 then
      if curChunk ≥ v.lastChunkWithNonZero then noMore
      else
        let curChunk := scanUp v.chunks (curChunk + 1) (v.lastChunkWithNonZero - curChunk - 1).toNat
        findBit L (v.chunks curChunk) (L.getBitMask 0) (toInt32 (L.getBitIndex curChunk))
          L.bitsInChunk
    else findBit L tmpChunk (L.getBitMask curIndex) curIndex L.bitsInChunk

/-- The iterator after `setBitVector` with a start bit. -/
def start (v : BitVector L) (startBit : ℤ) : ℤ := v.getNextBit (startBit - 1)

def hasMoreElements (v : BitVector L) (curIndex : ℤ) : Bool :=
  decide (L.getChunkIndex curIndex < v.numChunks)

/-- What `getNextElement` returns until there are no more elements; `none` if `fuel`
calls are not enough. -/
def elements (v : BitVector L) (curIndex : ℤ) : ℕ → Option (List ℤ)
  | 0 => none
  | fuel + 1 =>
    if v.hasMoreElements curIndex then
      (v.elements (v.getNextBit curIndex) fuel).map (curIndex :: ·)
    else some []

end BitVector

end OMR.Compiler
