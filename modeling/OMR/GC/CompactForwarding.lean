import OMR.Lib.WordBits

/-!
# The forwarding table of a compaction

`CompactTableEntry`, `saveForwardingPtr` and `getForwardingPtr` of `CompactScheme.cpp`, for 64
bits with `maxOffset` 43, 3 hints and 7 bits for each. A page has 1024 bytes, and one bit of its
compressed mark bits stands for 16 of them. An assertion that fails gives `none`; `assume0` does
nothing.
-/

namespace OMR.GC.Compact

open OMR.Lib

/-- `sizeof_page`. -/
def sizeofPage : ℕ := 1024

/-- `2 * J9MODRON_HEAP_BYTES_PER_HEAPMAP_BIT`. -/
def bytesPerCompressedBit : ℕ := 16

def maxOffset : ℕ := 43

def maxHints : ℕ := 3

def hintSize : ℕ := 7

/-- `maxValue`, with 8 bytes to a slot. -/
def maxValue : ℕ := sizeofPage / 8

def invalidValue : ℕ := maxValue - 1

/-- `makeMask`. -/
def makeMask (maskSize : ℕ) : BitVec 64 := 1#64 <<< maskSize - 1#64

/-- The loop of `countBits`. -/
def countBitsLoop : (fuel : ℕ) → BitVec 64 → ℕ → ℕ
  | 0, _, count => count
  | fuel + 1, x, count =>
    if x ≠ 0 then countBitsLoop fuel (x &&& (x - 1#64)) (count + 1) else count

/-- `countBits`, of which every round takes a bit away. -/
def countBits (x : BitVec 64) : ℕ := countBitsLoop 64 x 0

structure CompactTableEntry where
  addr : ℕ
  bits : BitVec 64
deriving DecidableEq, Repr

namespace CompactTableEntry

/-- `getHintShiftCount`. -/
def getHintShiftCount (index : ℕ) : Option ℕ :=
  let shiftCount := maxOffset + index * hintSize
  if shiftCount < 8 * 8 then some shiftCount else none

/-- `initialize`. -/
def initializeEntry (addr : ℕ) : CompactTableEntry := ⟨addr ||| 3, 0#64⟩

/-- `getAddr`. -/
def getAddr (entry : CompactTableEntry) : ℕ :=
  if entry.addr &&& 3 ≠ 3 then 0 else entry.addr - (entry.addr &&& 3)

/-- `setBit`. -/
def setBit (entry : CompactTableEntry) (offset : ℕ) : CompactTableEntry :=
  { entry with bits := entry.bits ||| 1#64 <<< offset }

/-- `getBit`. -/
def getBit (entry : CompactTableEntry) (offset : ℕ) : BitVec 64 :=
  entry.bits &&& 1#64 <<< offset

/-- `getObjectOrdinal`. -/
def getObjectOrdinal (entry : CompactTableEntry) (offset : ℕ) : ℕ :=
  countBits (entry.bits &&& makeMask offset)

/-- `setHint`. -/
def setHint (entry : CompactTableEntry) (index value : ℕ) : Option CompactTableEntry :=
  if index < maxHints ∧ 0 < value then
    let value := if value ≥ maxValue then invalidValue else value
    (getHintShiftCount index).map fun shiftCount =>
      { entry with bits := entry.bits ||| BitVec.ofNat 64 value <<< shiftCount }
  else none

/-- `getHint`. -/
def getHint (entry : CompactTableEntry) (index : ℕ) : Option ℕ :=
  if index < maxHints then
    (getHintShiftCount index).bind fun shiftCount =>
      let hint := (entry.bits >>> shiftCount &&& makeMask hintSize).toNat
      if hint ≠ 0 ∧ hint < maxValue then some hint else none
  else none

end CompactTableEntry

/-- The compact scheme, as far as forwarding reads it. -/
structure CompactScheme where
  heapBase : ℕ
  compactFrom : ℕ
  compactTo : ℕ

/-- The table and the local variables of `doCompact` that `saveForwardingPtr` keeps; no page is
-1 in the source. -/
structure SaveState where
  compactTable : ℕ → CompactTableEntry
  entry : CompactTableEntry
  page : Option ℕ
  counter : ℕ

namespace CompactScheme

variable (scheme : CompactScheme)

/-- `pageIndex`. -/
def pageIndex (objectPtr : ℕ) : ℕ := (objectPtr - scheme.heapBase) / sizeofPage

/-- `pageOffset`. -/
def pageOffset (objectPtr : ℕ) : ℕ := (objectPtr - scheme.heapBase) % sizeofPage

/-- `compressedPageOffset`. -/
def compressedPageOffset (objectPtr : ℕ) : ℕ :=
  scheme.pageOffset objectPtr / bytesPerCompressedBit

/-- The first part of `saveForwardingPtr`: a new page begins. -/
def turnPage (s : SaveState) (objectPtr forwardingPtr : ℕ) : SaveState :=
  if s.page ≠ some (scheme.pageIndex objectPtr) then
    { compactTable := match s.page with
        | none => s.compactTable
        | some page => Function.update s.compactTable page s.entry
      page := some (scheme.pageIndex objectPtr)
      entry := CompactTableEntry.initializeEntry forwardingPtr
      counter := 0 }
  else s

/-- `saveForwardingPtr`. -/
def saveForwardingPtr (s : SaveState) (objectPtr forwardingPtr : ℕ) : Option SaveState :=
  let s := scheme.turnPage s objectPtr forwardingPtr
  let entry := s.entry.setBit (scheme.compressedPageOffset objectPtr)
  if s.counter ≥ 1 ∧ s.counter ≤ maxHints then
    (entry.setHint (s.counter - 1) ((forwardingPtr - entry.getAddr) / 8)).map fun entry =>
      { s with entry := entry, counter := s.counter + 1 }
  else some { s with entry := entry, counter := s.counter + 1 }

/-- `saveForwardingPtr` for the objects of `doCompact`, with their forwarding pointers. -/
def saveForwardingPtrs : List (ℕ × ℕ) → SaveState → Option SaveState
  | [], s => some s
  | (objectPtr, forwardingPtr) :: objects, s =>
    (scheme.saveForwardingPtr s objectPtr forwardingPtr).bind (saveForwardingPtrs objects)

/-- The end of `doCompact`: the entry of the last page is stored. -/
def storeLast (s : SaveState) : ℕ → CompactTableEntry :=
  match s.page with
  | none => s.compactTable
  | some page => Function.update s.compactTable page s.entry

/-- The walk over objects from one on, by their consumed sizes. -/
def walkObjects (getConsumedSizeInBytesWithHeader : ℕ → ℕ) : (n forwardingPtr : ℕ) → ℕ
  | 0, forwardingPtr => forwardingPtr
  | n + 1, forwardingPtr =>
    walkObjects getConsumedSizeInBytesWithHeader n
      (forwardingPtr + getConsumedSizeInBytesWithHeader forwardingPtr)

/-- The loop over the hints, from the last one down, for an object behind the hinted ones. -/
def lastValidHint (entry : CompactTableEntry) : (hints n forwardingPtr : ℕ) → Option (ℕ × ℕ)
  | 0, n, forwardingPtr => some (n, forwardingPtr)
  | i + 1, n, forwardingPtr =>
    (entry.getHint i).bind fun hint =>
      if hint ≠ invalidValue then
        if n - (i + 1) > 0 then some (n - (i + 1), forwardingPtr + 8 * hint) else none
      else lastValidHint entry i n forwardingPtr

/-- `getForwardingPtr`. -/
def getForwardingPtr (getConsumedSizeInBytesWithHeader : ℕ → ℕ)
    (compactTable : ℕ → CompactTableEntry) (objectPtr : ℕ) : Option ℕ :=
  if objectPtr < scheme.compactFrom ∨ objectPtr ≥ scheme.compactTo then some objectPtr
  else
    let entry := compactTable (scheme.pageIndex objectPtr)
    let forwardingPtr := entry.getAddr
    if forwardingPtr = 0 then some objectPtr
    else
      let offset := scheme.compressedPageOffset objectPtr
      let n := entry.getObjectOrdinal offset
      if n = 0 then
        if entry.getBit offset = 0#64 then some objectPtr else some forwardingPtr
      else if n ≤ maxHints then
        (entry.getHint (n - 1)).map fun hint =>
          if hint ≠ invalidValue then forwardingPtr + 8 * hint
          else walkObjects getConsumedSizeInBytesWithHeader n forwardingPtr
      else
        (lastValidHint entry maxHints n forwardingPtr).map fun r =>
          walkObjects getConsumedSizeInBytesWithHeader r.1 r.2

/-- The objects that start on a page, in address order and at least 16 bytes long each, with
contiguous destinations. -/
structure PageObjects (getConsumedSizeInBytesWithHeader : ℕ → ℕ) (page : ℕ)
    (objects : List (ℕ × ℕ)) : Prop where
  inHeap : ∀ o ∈ objects, scheme.heapBase ≤ o.1
  onPage : ∀ o ∈ objects, scheme.pageIndex o.1 = page
  compacted : ∀ o ∈ objects, scheme.compactFrom ≤ o.1 ∧ o.1 < scheme.compactTo
  apart : objects.Pairwise fun a b => a.1 + 16 ≤ b.1
  contiguous : objects.IsChain fun a b => b.2 = a.2 + getConsumedSizeInBytesWithHeader a.2
  size_ge : ∀ o ∈ objects, 16 ≤ getConsumedSizeInBytesWithHeader o.2
  size_dvd : ∀ o ∈ objects, 8 ∣ getConsumedSizeInBytesWithHeader o.2
  destination : ∀ o ∈ objects, 0 < o.2 ∧ 8 ∣ o.2

/-- What the hints are for. The mark bits and the hints have bits of their own, ordinals count the
objects, and with hints an object is found where the walk without them finds it. -/
structure ForwardingSound (getConsumedSizeInBytesWithHeader : ℕ → ℕ) (page : ℕ)
    (objects : List (ℕ × ℕ)) (s : SaveState) : Prop where
  apart : ∀ o ∈ objects, ∀ index < maxHints,
    scheme.compressedPageOffset o.1 < maxOffset + index * hintSize ∨
      maxOffset + (index + 1) * hintSize ≤ scheme.compressedPageOffset o.1
  saved : ∃ s', scheme.saveForwardingPtrs objects s = some s' ∧
    (∀ o ∈ objects, ∀ offset ≤ scheme.compressedPageOffset o.1,
      (storeLast s' page).getObjectOrdinal offset =
        objects.countP fun o => scheme.compressedPageOffset o.1 < offset) ∧
    ∀ i, ∀ h : i < objects.length,
      scheme.getForwardingPtr getConsumedSizeInBytesWithHeader (storeLast s') objects[i].1 =
        some (walkObjects getConsumedSizeInBytesWithHeader i
          (objects.get ⟨0, Nat.zero_lt_of_lt h⟩).2)

end CompactScheme

end OMR.GC.Compact
