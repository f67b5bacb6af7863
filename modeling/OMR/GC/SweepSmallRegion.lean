import OMR.GC.HeapMap
import OMR.Lib.Extent

/-!
# `sweepSmallRegion`

The sweep of a region of equal cells in `SweepSchemeSegregated.cpp`. A chunk of unmarked
cells grows until a marked cell ends it, where words of the mark map without a bit are
skipped as a whole. The steps at which the sweep may yield change nothing and are left out.
-/

namespace OMR.GC

open OMR.Lib

/-- The region, as far as the sweep reads it: cells of one size from its low address on, which
is not `NULL`. -/
structure SegregatedRegion where
  lowAddress : ℕ
  cellSize : ℕ
  numCells : ℕ
  lowAddress_pos : 0 < lowAddress
  cellSize_pos : 0 < cellSize
  numCells_pos : 0 < numCells

/-- `MM_MemoryPoolAggregatedCellList`, as far as the sweep writes it; `freeList` are the chunks
from `_freeListHead` on. -/
structure AggregatedCellList where
  freeList : List Extent
  heapCurrent : Option ℕ
  heapTop : Option ℕ
  markCount : ℕ
  freeCount : ℕ

/-- `resetCounts`, which `sweepRegion` calls first. -/
def AggregatedCellList.resetCounts (pool : AggregatedCellList) : AggregatedCellList :=
  { pool with markCount := 0, freeCount := 0 }

/-- `resetFreeList`. -/
def AggregatedCellList.resetFreeList (pool : AggregatedCellList) : AggregatedCellList :=
  { pool with freeList := [] }

/-- `resetCurrentEntry`. -/
def AggregatedCellList.resetCurrentEntry (pool : AggregatedCellList) : AggregatedCellList :=
  { pool with
    heapCurrent := pool.freeList.head?.map Extent.base
    heapTop := pool.freeList.head?.map Extent.base }

/-- `setMarkCount`. -/
def AggregatedCellList.setMarkCount (pool : AggregatedCellList) (markCount : ℕ) :
    AggregatedCellList :=
  { pool with markCount := markCount }

/-- `addFreeChunk` of the pool. -/
def AggregatedCellList.addFreeChunk (pool : AggregatedCellList) (chunk : Extent)
    (freeChunkCellCount : ℕ) : AggregatedCellList :=
  { pool with
    freeList := chunk :: pool.freeList
    freeCount := pool.freeCount + freeChunkCellCount }

/-- `freeChunk`, `freeChunkSize` and `freeChunkCellCount`, while there is a free chunk. -/
structure FreeChunk where
  base : ℕ
  size : ℕ
  cellCount : ℕ

/-- The variables of the loop; `holes` are the chunks that `fillWithHoles` has filled. -/
structure SweepState where
  memoryPoolACL : AggregatedCellList
  holes : List Extent
  freeChunk : Option FreeChunk

namespace SegregatedRegion

variable (region : SegregatedRegion) (map : HeapMap)

/-- The address of a cell. -/
def cell (k : ℕ) : ℕ := region.lowAddress + region.cellSize * k

/-- `lastCellAddress`. -/
def lastCellAddress : ℕ := region.cell (region.numCells - 1)

/-- `lastCellSlotIndex`. -/
def lastCellSlotIndex : ℕ := map.getSlotIndex region.lastCellAddress

/-- The inner loop: on to the first word with a bit, but no further than `last`. -/
def skipEmptySlots (map : HeapMap) (last : ℕ) : (fuel slotIndex : ℕ) → ℕ
  | 0, slotIndex => slotIndex
  | fuel + 1, slotIndex =>
    if map.slot slotIndex = 0#64 ∧ slotIndex < last then skipEmptySlots map last fuel (slotIndex + 1)
    else slotIndex

/-- `numCellsInBlock` for the block of unmarked cells from an unmarked cell on. -/
def numCellsInBlock (currentCellAddress : ℕ) : ℕ :=
  let initialSlotIndex := map.getSlotIndex currentCellAddress
  let last := region.lastCellSlotIndex map
  if map.slot initialSlotIndex = 0#64 ∧ initialSlotIndex < last then
    let slotIndex := skipEmptySlots map last (last - (initialSlotIndex + 1)) (initialSlotIndex + 1)
    let nextCell := map.getFirstCellByMarkSlotIndex slotIndex
    (nextCell - 1 - currentCellAddress) / region.cellSize + 1
  else 1

/-- `addFreeChunk` for the free chunk, if there is one, which then is no more. A chunk below the
minimum is dark matter, filled with holes if the heap is to be walked. -/
def endFreeChunk (minimumFreeEntrySize : ℕ) (isFixHeapForWalk : Bool) (s : SweepState) :
    SweepState :=
  match s.freeChunk with
  | none => s
  | some chunk =>
    if minimumFreeEntrySize ≤ chunk.size then
      { s with
        memoryPoolACL := s.memoryPoolACL.addFreeChunk ⟨chunk.base, chunk.size⟩ chunk.cellCount
        freeChunk := none }
    else if isFixHeapForWalk then
      { s with holes := ⟨chunk.base, chunk.size⟩ :: s.holes, freeChunk := none }
    else { s with freeChunk := none }

/-- An unmarked block of cells goes into the free chunk. -/
def extendFreeChunk (currentCellAddress numCellsInBlock : ℕ) (s : SweepState) : SweepState :=
  let chunk := s.freeChunk.getD ⟨currentCellAddress, 0, 0⟩
  let blockSizeInBytes := numCellsInBlock * region.cellSize
  { s with
    freeChunk :=
      some ⟨chunk.base, chunk.size + blockSizeInBytes, chunk.cellCount + numCellsInBlock⟩ }

/-- A marked cell is counted. -/
def countMarked (s : SweepState) : SweepState :=
  { s with memoryPoolACL := s.memoryPoolACL.setMarkCount (s.memoryPoolACL.markCount + 1) }

/-- The loop over the cells. -/
def sweepCells (minimumFreeEntrySize : ℕ) (isFixHeapForWalk : Bool) :
    (fuel currentCellAddress : ℕ) → SweepState → Option SweepState
  | 0, _, _ => none
  | fuel + 1, currentCellAddress, s =>
    if currentCellAddress ≤ region.lastCellAddress then
      if map.isBitSet currentCellAddress then
        sweepCells minimumFreeEntrySize isFixHeapForWalk fuel
          (currentCellAddress + region.cellSize)
          (countMarked (endFreeChunk minimumFreeEntrySize isFixHeapForWalk s))
      else
        let cells := region.numCellsInBlock map currentCellAddress
        sweepCells minimumFreeEntrySize isFixHeapForWalk fuel
          (currentCellAddress + cells * region.cellSize)
          (region.extendFreeChunk currentCellAddress cells s)
    else some s

/-- `sweepSmallRegion`: the pool, the chunks filled with holes, and the cells that are reported
as dark matter. -/
def sweepSmallRegion (minimumFreeEntrySize : ℕ) (isFixHeapForWalk : Bool)
    (memoryPoolACL : AggregatedCellList) : Option (AggregatedCellList × List Extent × ℕ) :=
  (region.sweepCells map minimumFreeEntrySize isFixHeapForWalk (region.numCells + 1)
    region.lowAddress ⟨memoryPoolACL.resetFreeList, [], none⟩).map fun s =>
      let s := endFreeChunk minimumFreeEntrySize isFixHeapForWalk s
      let pool := s.memoryPoolACL.resetCurrentEntry
      (pool, s.holes, region.numCells - pool.markCount - pool.freeCount)

/-- The cells from `c` on, `n` of them, are unmarked, and the cell before them is not. -/
structure StartedRun (c n : ℕ) : Prop where
  pos : 0 < n
  unmarked : ∀ k, c ≤ k → k < c + n → map.isBitSet (region.cell k) = false
  before : ∀ k, k + 1 = c → map.isBitSet (region.cell k) = true

/-- The cells from `c` on, `n` of them, are a maximal run of unmarked ones. -/
structure EmptyRun (c n : ℕ) : Prop extends region.StartedRun map c n where
  le : c + n ≤ region.numCells
  after : c + n < region.numCells → map.isBitSet (region.cell (c + n)) = true

/-- The extent of a run of cells. -/
def runExtent (c n : ℕ) : Extent := ⟨region.cell c, n * region.cellSize⟩

end SegregatedRegion

end OMR.GC
