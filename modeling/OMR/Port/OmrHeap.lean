import OMR.Lib.BoundaryTags

/-!
# The heap sub-allocator

`omrheap.c` for a 64-bit build. A heap is the array of 64-bit slots from the
rounded-up base address on, the first four of which are the fields of the
`J9Heap` header. Pointers into the heap are slot numbers. The numbers in the slots
are integers: all sizes and slot numbers are far below the bounds of the types,
since the slots are memory. Where the source rounds a number of bytes that its
caller passes, it wraps around.
-/

namespace OMR.Port.OmrHeap

open OMR.Lib

/-- `baseSlot`: the slots from the header on. -/
abbrev Slots := ℤ → ℤ

namespace Slots

def heapSize (m : Slots) : ℤ := m 0

def firstFreeBlock (m : Slots) : ℤ := m 1

def lastAllocSlot (m : Slots) : ℤ := m 2

def largestAllocSizeVisited (m : Slots) : ℤ := m 3

/-- A store to one slot. -/
def set (m : Slots) (i v : ℤ) : Slots := Function.update m i v

theorem set_of_ne {m : Slots} {i j v : ℤ} (h : i ≠ j) : m.set j v i = m i := by
  rw [set, Function.update_of_ne h]

@[simp] theorem set_self (m : Slots) (i v : ℤ) : m.set i v i = v := by
  rw [set, Function.update_self]

end Slots

open Slots

/-- `ALIGNMENT_ROUND_UP`. -/
def alignmentRoundUp (value : UInt64) : UInt64 := (value + 7) &&& ~~~7

/-- `ALIGNMENT_ROUND_DOWN`. -/
def alignmentRoundDown (value : UInt64) : UInt64 := value &&& ~~~7

/-- The slots of the header: `sizeof(J9Heap) / sizeof(uint64_t)`. -/
def headerSlots : ℤ := 4

/-- `HEAP_MANAGEMENT_OVERHEAD`, in bytes. -/
def heapManagementOverhead : UInt64 := 48

/-- `omrheap_create` on the memory `m`, which starts at the rounded-up base. -/
def create (m : Slots) (heapBase heapSize : UInt64) : Option Slots :=
  if heapBase = 0 then none
  else
    let heapBaseDelta := alignmentRoundUp heapBase - heapBase
    if heapSize ≤ heapManagementOverhead + heapBaseDelta then none
    else
      let adjustedHeapSize := alignmentRoundDown (heapSize - heapBaseDelta)
      if adjustedHeapSize ≤ heapManagementOverhead then none
      else
        let numSlots : ℤ := (adjustedHeapSize / 8).toNat
        let blockSize := numSlots - 6
        some (((((m.set 0 numSlots).set 1 headerSlots).set headerSlots blockSize).set
          (numSlots - 1) blockSize).set 2 headerSlots |>.set 3 blockSize)

/-- The number of slots for a request, or none if rounding it up overflows. -/
def requestSlots (byteAmount : UInt64) : Option ℤ :=
  if byteAmount = 0 then some 1
  else
    let adjustedRequestSize := alignmentRoundUp byteAmount / 8
    if byteAmount > adjustedRequestSize * 8 then none else some adjustedRequestSize.toNat

/-- The search for a free block of at least `request` slots: its first slot, if
there is one, and the largest size seen on the way. -/
def findFit (m : Slots) (lastSlot request cursor largestChunkSize : ℤ) : Option ℤ × ℤ :=
  if cursor < lastSlot then
    if m cursor < 0 then findFit m lastSlot request (cursor + (-m cursor + 2)) largestChunkSize
    else if m cursor ≥ request then (some cursor, largestChunkSize)
    else findFit m lastSlot request (cursor + (m cursor + 2))
      (if m cursor > largestChunkSize then m cursor else largestChunkSize)
  else (none, largestChunkSize)
termination_by (lastSlot - cursor).toNat

/-- The search for the next free block: its first slot, or 0. -/
def nextFree (m : Slots) (lastSlot cursor : ℤ) : ℤ :=
  if cursor < lastSlot then
    if m cursor > 0 then cursor else nextFree m lastSlot (cursor + (-m cursor + 2))
  else 0
termination_by (lastSlot - cursor).toNat

/-- The end of `omrheap_allocate`, for the block found at `cursor`. -/
def takeBlock (m : Slots) (cursor newSize largestChunkSize : ℤ) : Slots :=
  let chunkSize := m cursor
  let residualSize := chunkSize - newSize
  let isFirstFree := cursor = m.firstFreeBlock
  if residualSize ≥ 3 then
    let m := (((m.set cursor (-newSize)).set (cursor + newSize + 1) (-newSize)).set
      (cursor + newSize + 2) (residualSize - 2)).set (cursor + chunkSize + 1) (residualSize - 2)
    if isFirstFree then
      ((m.set 1 (cursor + newSize + 2)).set 2 (cursor + newSize + 2)).set 3 0
    else (m.set 2 (cursor + newSize + 2)).set 3 largestChunkSize
  else
    let m := (m.set cursor (-chunkSize)).set (cursor + chunkSize + 1) (-chunkSize)
    if isFirstFree then
      let next := nextFree m (m.heapSize - 1) (cursor + chunkSize + 2)
      if next = 0 then m.set 1 0 else ((m.set 1 next).set 2 next).set 3 0
    else m

/-- `omrheap_allocate`: the first slot of the memory handed out, and the heap. -/
def allocate (m : Slots) (byteAmount : UInt64) : Option ℤ × Slots :=
  if m.firstFreeBlock = 0 then (none, m)
  else
    match requestSlots byteAmount with
    | none => (none, m)
    | some request =>
      if request > m.heapSize then (none, m)
      else
        let found :=
          if request ≤ m.largestAllocSizeVisited then
            findFit m (m.heapSize - 1) request m.firstFreeBlock 0
          else findFit m (m.heapSize - 1) request m.lastAllocSlot m.largestAllocSizeVisited
        match found with
        | (none, _) => (none, m)
        | (some cursor, largest) => (some (cursor + 1), takeBlock m cursor request largest)

/-- What `omrheap_free` knows after a merge: the first slot of the block and its
size. -/
structure Merged where
  top : ℤ
  size : ℤ
  heap : Slots

/-- The merge with the block in front. The cursor of the last allocation is moved
when it stands at the block that is freed. -/
def mergePrevious (m : Slots) (top : ℤ) : Merged :=
  let size := -m top
  if top = headerSlots then ⟨top, size, m⟩
  else
    let previous := m (top - 1)
    if previous > 0 then
      let top' := top - 1 - previous - 1
      ⟨top', size + (previous + 2), if top - 1 = m.lastAllocSlot - 1 then m.set 2 top' else m⟩
    else ⟨top, size, m⟩

/-- The merge with the block behind. -/
def mergeNext (b : Merged) : Merged :=
  let m := (b.heap.set b.top b.size).set (b.top + b.size + 1) b.size
  if b.top + b.size + 1 = m.heapSize - 1 then ⟨b.top, b.size, m⟩
  else
    let next := b.top + b.size + 2
    if m next > 0 then
      let size := b.size + (m next + 2)
      let m := (m.set b.top size).set (b.top + size + 1) size
      ⟨b.top, size, if next = m.lastAllocSlot then m.set 2 b.top else m⟩
    else ⟨b.top, b.size, m⟩

/-- `omrheap_free` of an address that is not `NULL`. -/
def free (m : Slots) (address : ℤ) : Slots :=
  let b := mergeNext (mergePrevious m (address - 1))
  if m.firstFreeBlock = 0 ∨ b.top < m.firstFreeBlock then
    ((b.heap.set 1 b.top).set 3 0).set 2 b.top
  else if b.top < b.heap.lastAllocSlot then
    if b.size > b.heap.largestAllocSizeVisited then b.heap.set 3 b.size else b.heap
  else b.heap

/-- `memcpy` of `count` slots. -/
def copySlots (m : Slots) (target source count : ℤ) : Slots := fun i =>
  if target ≤ i ∧ i < target + count then m (source + (i - target)) else m i

/-- The end of `omrheap_reallocate`: start again at the first free block. -/
def resetCursor (m : Slots) : Slots := (m.set 3 0).set 2 m.firstFreeBlock

/-- The tags of a block and of the free block behind it. -/
def setBlocks (m : Slots) (top size nextSize : ℤ) : Slots :=
  (((m.set top (-size)).set (top + size + 1) (-size)).set (top + size + 2) nextSize).set
    (top + size + 2 + nextSize + 1) nextSize

/-- The branch of `omrheap_reallocate` that grows a block into the free block
behind it. -/
def growBlock (m : Slots) (top growAmount : ℤ) (nextBlockIsFirstFreeBlock : Bool) : Slots :=
  let size := -m top
  let nextSize := m (top + size + 2)
  let residualSize := nextSize + 2 - growAmount
  if residualSize ≥ 3 then
    let m := setBlocks m top (size + growAmount) (nextSize - growAmount)
    if nextBlockIsFirstFreeBlock then m.set 1 (top + (size + growAmount) + 2) else m
  else
    let size := size + (growAmount + residualSize)
    let m := (m.set top (-size)).set (top + size + 1) (-size)
    if nextBlockIsFirstFreeBlock then
      m.set 1 (nextFree m (m.heapSize - 1) (top + size + 2))
    else m

/-- The branch of `omrheap_reallocate` that shrinks a block. `growAmount` is
negative. -/
def shrinkBlock (m : Slots) (top growAmount : ℤ) (isLastBlock nextBlockIsFirstFreeBlock : Bool) :
    Slots :=
  let size := -m top
  let nextSize := m (top + size + 2)
  if isLastBlock = false ∧ nextSize > 0 then
    let m := setBlocks m top (size + growAmount) (nextSize - growAmount)
    if nextBlockIsFirstFreeBlock then m.set 1 (top + (size + growAmount) + 2) else m
  else if growAmount < -2 then
    let m := setBlocks m top (size + growAmount) (-growAmount - 2)
    let nextBlockSlot := top + (size + growAmount) + 2
    if m.firstFreeBlock = 0 ∨ nextBlockSlot < m.firstFreeBlock then m.set 1 nextBlockSlot else m
  else m

/-- `omrheap_reallocate` of an address that is not `NULL`. -/
def reallocate (m : Slots) (address : ℤ) (byteAmount : UInt64) : Option ℤ × Slots :=
  let top := address - 1
  let size := -m top
  match requestSlots byteAmount with
  | none => (none, m)
  | some request =>
    let growAmount := request - size
    if growAmount = 0 then (some address, m)
    else
      let isLastBlock := decide (top + size + 1 = m.heapSize - 1)
      let nextSize := m (top + size + 2)
      let nextBlockIsFirstFreeBlock := decide (isLastBlock = false ∧ m.firstFreeBlock ≠ 0 ∧
        top + size + 2 = m.firstFreeBlock)
      if growAmount > 0 then
        if isLastBlock = true ∨ nextSize < 0 ∨ nextSize + 2 < growAmount then
          match allocate m byteAmount with
          | (none, m) => (none, resetCursor m)
          | (some newAddress, m) =>
            (some newAddress, resetCursor (free (copySlots m newAddress address size) address))
        else (some address, resetCursor (growBlock m top growAmount nextBlockIsFirstFreeBlock))
      else
        (some address,
          resetCursor (shrinkBlock m top growAmount isLastBlock nextBlockIsFirstFreeBlock))

/-- The slots that `omrheap_grow` adds for a number of bytes. -/
def growSlots (growAmount : UInt64) : ℤ := (alignmentRoundDown growAmount / 8).toNat

/-- `omrheap_grow`. -/
def grow (m : Slots) (growAmount : UInt64) : Bool × Slots :=
  let numSlots := growSlots growAmount
  let heapSize := m.heapSize
  if numSlots ≤ 4 then (false, m)
  else
    let temp := m (heapSize - 1)
    let m' :=
      if temp < 0 then
        (m.set heapSize (numSlots - 2)).set (heapSize + numSlots - 1) (numSlots - 2)
      else
        (m.set (heapSize - temp - 2) (numSlots + temp)).set (heapSize + numSlots - 1) (numSlots + temp)
    let m' := if m.firstFreeBlock = 0 then m'.set 1 heapSize else m'
    (true, m'.set 0 (heapSize + numSlots))

end OMR.Port.OmrHeap
