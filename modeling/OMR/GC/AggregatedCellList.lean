import OMR.GC.FreeListWalks
import OMR.GC.SweepSmallRegionExact
import OMR.Lib.Runs

/-!
# `MemoryPoolAggregatedCellList`

The pool of a region of small cells. The free chunks are linked by the headers in their first
cells, but for the current chunk, from which cells are handed out. A run hands out cells, takes
them back and updates the counts, and the owners of cells that are handed out write to them.
-/

namespace OMR.GC

open OMR.Lib

/-- The region of a small size class, the cells of which have room for a header. -/
structure SmallRegion extends SegregatedRegion where
  header_le : sizeofFreeHeader ≤ cellSize
  top_le : lowAddress + cellSize * numCells ≤ 2 ^ 64

/-- `setSize` and `setNext` of a chunk that has had no header. -/
def Headers.writeHeader (chunk : ℕ) (header : FreeHeader) (m : Headers) : Headers :=
  Function.update (m.clobber chunk sizeofFreeHeader) chunk (some header)

/-- A pointer as an integer, where `NULL` is 0. -/
def address (pointer : Option ℕ) : ℕ := pointer.getD 0

/-- `MM_MemoryPoolAggregatedCellList` and the memory of its headers. -/
structure CellPool where
  headers : Headers
  freeListHead : Option ℕ
  heapCurrent : Option ℕ
  heapTop : Option ℕ
  freeCount : BitVec 64
  preSweepFreeBytes : BitVec 64

namespace CellPool

variable (region : SmallRegion) (pool : CellPool)

/-- The chunk `[_heapCurrent, _heapTop)`. -/
def current : Extent :=
  ⟨address pool.heapCurrent, address pool.heapTop - address pool.heapCurrent⟩

def resetCurrentEntry : CellPool :=
  { pool with heapCurrent := pool.freeListHead, heapTop := pool.freeListHead }

/-- `setSize` of a chunk, which then is linked in as the head. -/
def linkInAsHead (chunk size : ℕ) : CellPool :=
  { pool with
    headers := pool.headers.writeHeader chunk ⟨pool.freeListHead, size⟩
    freeListHead := some chunk }

/-- `reset`: one chunk of all cells, which has its size from `fillWithHoles`. -/
def reset : Option CellPool :=
  let filled :=
    pool.headers.fillWithHoles region.lowAddress (region.cellSize * region.numCells)
  if filled.2 then
    (filled.1.setNext region.lowAddress none).map fun m =>
      { pool with headers := m, freeListHead := some region.lowAddress }.resetCurrentEntry
  else none

def refreshCurrentEntry : Option CellPool :=
  match pool.freeListHead with
  | some head => (pool.headers head).map fun header =>
    { pool with
      heapCurrent := some head
      heapTop := some (head + header.size)
      freeListHead := header.next }
  | none => some { pool with heapCurrent := none, heapTop := none }

/-- `addBytesAllocated`, but for what it tells the allocation tracker. -/
def addBytesAllocated (bytesAllocated : ℕ) : CellPool :=
  { pool with preSweepFreeBytes := pool.preSweepFreeBytes - BitVec.ofNat 64 bytesAllocated }

/-- The part of the current chunk that is wanted is cut off, or the whole chunk is taken: the
pool, the address of the cells, and their size. -/
def takeCells (desiredCellCount adjustedDesiredBytes cellSize : ℕ) :
    Option (CellPool × Option ℕ × ℕ) :=
  let available := address pool.heapTop - address pool.heapCurrent
  if available > adjustedDesiredBytes then
    let preAllocatedBytes := desiredCellCount * cellSize
    let heapCurrent := address pool.heapCurrent + preAllocatedBytes
    let filled := pool.headers.fillWithHoles heapCurrent (address pool.heapTop - heapCurrent)
    some ({ pool with headers := filled.1, heapCurrent := some heapCurrent }.addBytesAllocated
      preAllocatedBytes, pool.heapCurrent, preAllocatedBytes)
  else
    pool.refreshCurrentEntry.map fun refreshed =>
      (refreshed.addBytesAllocated available, pool.heapCurrent, available)

/-- `preAllocateCells`: the pool, `allocatedCellList` and `preAllocatedBytes`. -/
def preAllocateCells (cellSize desiredBytes : ℕ) : Option (CellPool × Option ℕ × ℕ) :=
  let desiredCellCount := desiredBytes / cellSize
  let adjusted := if desiredCellCount = 0 then (1, cellSize) else (desiredCellCount, desiredBytes)
  (if pool.heapCurrent = pool.heapTop then pool.refreshCurrentEntry else some pool).bind
    fun pool => pool.takeCells adjusted.1 adjusted.2 cellSize

/-- The loop of `updateCounts` over the chunks, with enough fuel for the cells of the region. -/
def addFreeCounts (m : Headers) (cellSize : ℕ) :
    ℕ → Option ℕ → BitVec 64 → Option (BitVec 64)
  | 0, _, _ => none
  | _ + 1, none, freeCount => some freeCount
  | fuel + 1, some chunk, freeCount => (m chunk).bind fun header =>
    addFreeCounts m cellSize fuel header.next
      (freeCount + BitVec.ofNat 64 (header.size / cellSize))

/-- The rest of the current chunk goes back to the list. -/
def flushCurrent : CellPool :=
  if address pool.heapCurrent < address pool.heapTop then
    (pool.linkInAsHead (address pool.heapCurrent)
      (address pool.heapTop - address pool.heapCurrent)).resetCurrentEntry
  else pool

def updateCounts (fromFlush : Bool) : Option CellPool :=
  if fromFlush ∧ pool.freeListHead = none ∧ pool.heapCurrent = pool.heapTop then
    some { pool with freeCount := 0 }
  else
    let pool := pool.flushCurrent
    (addFreeCounts pool.headers region.cellSize (region.numCells + 1) pool.freeListHead
      pool.freeCount).map fun freeCount => { pool with freeCount := freeCount }

def returnCell (cell : ℕ) : CellPool := pool.linkInAsHead cell region.cellSize

/-- The loop of `debugCountFreeBytes`. -/
def addFreeBytes (m : Headers) : ℕ → Option ℕ → ℕ → Option ℕ
  | 0, _, _ => none
  | _ + 1, none, freeBytes => some freeBytes
  | fuel + 1, some chunk, freeBytes => (m chunk).bind fun header =>
    addFreeBytes m fuel header.next (freeBytes + header.size)

/-- `debugCountFreeBytes`: the difference of the two pointers counts the words between them. -/
def debugCountFreeBytes : Option ℕ :=
  (addFreeBytes pool.headers (region.numCells + 1) pool.freeListHead 0).map fun freeBytes =>
    freeBytes + (address pool.heapTop - address pool.heapCurrent) / 8

end CellPool

/-- A pool and the cells that it has handed out and not got back. -/
structure CellHeap where
  pool : CellPool
  handedOut : List ℕ

inductive CellOp where
  | preAllocateCells (desiredBytes : ℕ)
  | returnCell (cell : ℕ)
  | updateCounts (fromFlush : Bool)
  | debugCountFreeBytes
  /-- The owner of a cell writes to it. -/
  | write (base size : ℕ)
  deriving DecidableEq

namespace SmallRegion

variable (region : SmallRegion)

/-- The cells of a chunk. -/
def cellsIn (e : Extent) : List ℕ :=
  (List.range (e.size / region.cellSize)).map fun i => e.base + i * region.cellSize

def exec (s : CellHeap) : CellOp → Option CellHeap
  | .preAllocateCells desiredBytes =>
    (s.pool.preAllocateCells region.cellSize desiredBytes).map fun (pool, list, bytes) =>
      ⟨pool, s.handedOut ++ region.cellsIn ⟨address list, bytes⟩⟩
  | .returnCell cell => some ⟨s.pool.returnCell region cell, s.handedOut.erase cell⟩
  | .updateCounts fromFlush => (s.pool.updateCounts region fromFlush).map fun pool =>
    ⟨pool, s.handedOut⟩
  | .debugCountFreeBytes => (s.pool.debugCountFreeBytes region).map fun _ => s
  | .write base size =>
    some ⟨{ s.pool with headers := s.pool.headers.clobber base size }, s.handedOut⟩

/-- Only cells that are handed out are returned and written to. -/
def Permitted (s : CellHeap) : CellOp → Prop
  | .returnCell cell => cell ∈ s.handedOut
  | .write base size => ∃ cell ∈ s.handedOut, (⟨base, size⟩ : Extent).Within ⟨cell, region.cellSize⟩
  | _ => True

/-- The pool of the sweep in memory. -/
structure InMemory (acl : AggregatedCellList) (pool : CellPool) : Prop where
  freeListHead_eq : pool.freeListHead = firstOf none acl.freeList
  linked : Linked pool.headers none acl.freeList
  heapCurrent_eq : pool.heapCurrent = acl.heapCurrent
  heapTop_eq : pool.heapTop = acl.heapTop
  freeCount_eq : pool.freeCount = BitVec.ofNat 64 acl.freeCount

/-- The pool has been set up, with these free chunks. -/
inductive SetUp : CellPool → List Extent → Prop
  | reset {pool pool' : CellPool} : pool.reset region = some pool' →
      SetUp pool' [⟨region.lowAddress, region.cellSize * region.numCells⟩]
  | sweep {map : HeapMap} {minimumFreeEntrySize : ℕ} {isFixHeapForWalk : Bool}
      {acl acl' : AggregatedCellList} {holes : List Extent} {darkMatterCells : ℕ}
      {pool : CellPool} : map.heapBase ≤ region.lowAddress →
      region.sweepSmallRegion map minimumFreeEntrySize isFixHeapForWalk acl.resetCounts =
        some (acl', holes, darkMatterCells) → InMemory acl' pool → SetUp pool acl'.freeList

/-- A chunk of whole cells of the region. -/
def WholeCells (e : Extent) : Prop :=
  ∃ c n, 0 < n ∧ c + n ≤ region.numCells ∧ e = region.runExtent c n

/-- The current chunk has no cells, or some whole ones. -/
def CurrentChunk (pool : CellPool) : Prop :=
  pool.heapCurrent = pool.heapTop ∨
    ∃ c n, 0 < n ∧ c + n ≤ region.numCells ∧
      pool.heapCurrent = some (region.cell c) ∧ pool.heapTop = some (region.cell (c + n))

/-- The linked chunks are these, all of whole cells. -/
structure Chunks (pool : CellPool) (chunks : List Extent) : Prop where
  head : pool.freeListHead = firstOf none chunks
  linked : Linked pool.headers none chunks
  whole : ∀ e ∈ chunks, region.WholeCells e

/-- The free cells of a pool. -/
def poolCells (pool : CellPool) (chunks : List Extent) : List ℕ :=
  region.cellsIn pool.current ++ chunks.flatMap region.cellsIn

/-- `free` are the cells that were free at first. Each of them is handed out, in the current
chunk, or in one of the chunks that are linked in memory, and in one only. -/
structure Layout (free : List ℕ) (s : CellHeap) (chunks : List Extent) : Prop where
  chunks_linked : region.Chunks s.pool chunks
  current_whole : region.CurrentChunk s.pool
  cells : (s.handedOut ++ region.poolCells s.pool chunks).Perm free

end SmallRegion

end OMR.GC
