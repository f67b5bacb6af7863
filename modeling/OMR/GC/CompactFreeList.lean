import OMR.GC.MemoryPoolAddressOrderedList

/-!
# The free list after a compaction

`rebuildFreelist` and `addFreeEntry` of `CompactScheme.cpp` for one region. The sub area table
of the region is a list that ends with the `end_segment` entry, whose first object is the top of
the region. The memory pools are address-ordered ones that have been reset.
-/

namespace OMR.GC.Compact

open OMR.Lib

/-- The pools of a subspace. One without a large object area has the first one only. -/
inductive PoolId
  | smallObjects
  | largeObjects
deriving DecidableEq, Repr

/-- `SubAreaEntry::State`. -/
inductive SubAreaState
  | init
  | busy
  | ready
  | full
  | fixupOnly
  | endSegment
  | endHeap
deriving DecidableEq, Repr

/-- `SubAreaEntry`, as far as `rebuildFreelist` reads it. -/
structure SubAreaEntry where
  memoryPool : PoolId
  firstObject : ℕ
  freeChunk : Option ℕ
  state : SubAreaState
deriving DecidableEq, Repr

/-- `getMemoryPool` of a range, with `highAddr`; `currentLOABase` is `none` without a large object
area. -/
def getMemoryPool (currentLOABase : Option ℕ) (addrBase addrTop : ℕ) : PoolId × Option ℕ :=
  match currentLOABase with
  | none => (.smallObjects, none)
  | some border =>
    if addrBase < border ∧ addrTop ≤ border then (.smallObjects, none)
    else if addrBase < border ∧ addrTop > border then (.smallObjects, some border)
    else (.largeObjects, none)

/-- `getMemoryPool` of an address. -/
def getMemoryPoolOf (currentLOABase : Option ℕ) (addr : ℕ) : PoolId :=
  match currentLOABase with
  | none => .smallObjects
  | some border => if addr < border then .smallObjects else .largeObjects

/-- `MM_CompactMemoryPoolState`; `freeList` are the entries from `_freeListHead` to
`_previousFreeEntry`. -/
structure CompactMemoryPoolState where
  memoryPool : PoolId
  freeList : List Extent
  freeBytes : ℕ
  freeHoles : ℕ
  largestFreeEntry : ℕ

/-- A cleared state for a pool. -/
def CompactMemoryPoolState.clear (memoryPool : PoolId) : CompactMemoryPoolState :=
  ⟨memoryPool, [], 0, 0, 0⟩

/-- `flushPool`. -/
def flushPool (poolState : CompactMemoryPoolState) (pools : PoolId → Pool) : PoolId → Pool :=
  let memoryPool := pools poolState.memoryPool
  let memoryPool :=
    if poolState.freeList = [] then memoryPool
    else (memoryPool.addFreeEntries poolState.freeList poolState.freeHoles
      poolState.freeBytes).getD memoryPool
  Function.update pools poolState.memoryPool
    { memoryPool with
      freeMemorySize := poolState.freeBytes
      freeEntryCount := poolState.freeHoles
      largestFreeEntry := poolState.largestFreeEntry }

/-- A chunk of `addFreeEntry`, which becomes an entry of the pool or is abandoned. -/
def addChunk (minimumFreeEntrySize : ℕ) (poolState : CompactMemoryPoolState)
    (chunkBase chunkSize : ℕ) : CompactMemoryPoolState :=
  if chunkSize > minimumFreeEntrySize then
    { poolState with
      freeList := poolState.freeList ++
        (freeEntryIn minimumFreeEntrySize chunkBase (chunkBase + chunkSize)).toList
      freeBytes := poolState.freeBytes + chunkSize
      freeHoles := poolState.freeHoles + 1
      largestFreeEntry := max poolState.largestFreeEntry chunkSize }
  else poolState

/-- `addFreeEntry`. -/
def addFreeEntry (currentLOABase : Option ℕ) (poolState : CompactMemoryPoolState)
    (pools : PoolId → Pool) (currentFreeBase currentFreeSize : ℕ) :
    CompactMemoryPoolState × (PoolId → Pool) :=
  let (lowPool, highAddr) :=
    getMemoryPool currentLOABase currentFreeBase (currentFreeBase + currentFreeSize)
  let (poolState, pools) :=
    if lowPool ≠ poolState.memoryPool then
      (CompactMemoryPoolState.clear lowPool, flushPool poolState pools)
    else (poolState, pools)
  let lowChunkSize := (highAddr.map fun addr => addr - currentFreeBase).getD currentFreeSize
  let poolState :=
    addChunk (pools lowPool).minimumFreeEntrySize poolState currentFreeBase lowChunkSize
  match highAddr with
  | none => (poolState, pools)
  | some highAddr =>
    let highChunkSize := currentFreeBase + currentFreeSize - highAddr
    let pools := flushPool poolState pools
    let highPool := getMemoryPoolOf currentLOABase highAddr
    (addChunk (pools highPool).minimumFreeEntrySize (CompactMemoryPoolState.clear highPool) highAddr
      highChunkSize, pools)

/-- `addFreeEntry` for the run that ends at the first object of a sub area, if there is one. -/
def endRun (currentLOABase : Option ℕ) (subArea : SubAreaEntry) (currentFreeBase : Option ℕ)
    (s : CompactMemoryPoolState × (PoolId → Pool)) : CompactMemoryPoolState × (PoolId → Pool) :=
  match currentFreeBase with
  | none => s
  | some base => addFreeEntry currentLOABase s.1 s.2 base (subArea.firstObject - base)

/-- One round of the loop over the sub areas. -/
def visitSubArea (currentLOABase : Option ℕ) (subArea : SubAreaEntry)
    (currentFreeBase : Option ℕ) (s : CompactMemoryPoolState × (PoolId → Pool)) :
    Option ℕ × CompactMemoryPoolState × (PoolId → Pool) :=
  match subArea.freeChunk with
  | some freeChunk =>
    if freeChunk = subArea.firstObject then
      match currentFreeBase with
      | none => (some subArea.firstObject, s)
      | some base => (some base, s)
    else (some freeChunk, endRun currentLOABase subArea currentFreeBase s)
  | none => (none, endRun currentLOABase subArea currentFreeBase s)

/-- The loop over the sub areas, up to the `end_segment` entry. -/
def rebuildLoop (currentLOABase : Option ℕ) : List SubAreaEntry → Option ℕ →
    CompactMemoryPoolState × (PoolId → Pool) →
    Option (Option ℕ × CompactMemoryPoolState × (PoolId → Pool))
  | [], _, _ => none
  | subArea :: rest, currentFreeBase, s =>
    let r := visitSubArea currentLOABase subArea currentFreeBase s
    if subArea.state = .endSegment then some r else rebuildLoop currentLOABase rest r.1 r.2

/-- `rebuildFreelist` for a region: `currentFreeBase` after the loop and the pools. -/
def rebuildFreelist (currentLOABase : Option ℕ) (subAreaTable : List SubAreaEntry)
    (pools : PoolId → Pool) : Option (Option ℕ × (PoolId → Pool)) :=
  match subAreaTable with
  | [] => none
  | subArea :: _ =>
    (rebuildLoop currentLOABase subAreaTable none
      (CompactMemoryPoolState.clear subArea.memoryPool, pools)).map fun r =>
        (r.1, flushPool r.2.1 r.2.2)

/-- A sub area table as `evacuateSubArea` leaves it. -/
def Evacuated : List SubAreaEntry → Prop
  | [] => False
  | [last] => last.state = .endSegment ∧ last.freeChunk = none
  | subArea :: next :: rest =>
    subArea.state ≠ .endSegment ∧ subArea.firstObject < next.firstObject ∧
      (∀ freeChunk ∈ subArea.freeChunk,
        subArea.firstObject ≤ freeChunk ∧ freeChunk ≤ next.firstObject) ∧
      Evacuated (next :: rest)

/-- The whole sub area is free. -/
def SubAreaEntry.IsFree (subArea : SubAreaEntry) : Prop :=
  subArea.freeChunk = some subArea.firstObject

instance (subArea : SubAreaEntry) : Decidable subArea.IsFree :=
  inferInstanceAs (Decidable (_ = _))

/-- A maximal run of a free tail, or of a wholly free sub area behind one without free space, and
the wholly free sub areas that follow. -/
def IsRun (subAreaTable : List SubAreaEntry) (run : Extent) : Prop :=
  ∃ before subArea free stop after,
    subAreaTable = before ++ subArea :: (free ++ stop :: after) ∧
    subArea.freeChunk = some run.base ∧
    (¬ subArea.IsFree ∨ ∀ previous ∈ before.getLast?, previous.freeChunk = none) ∧
    (∀ e ∈ free, e.IsFree) ∧ ¬ stop.IsFree ∧ run.size = stop.firstObject - run.base

/-- The part of a range that lies in the area of a pool. -/
def piece (currentLOABase : Option ℕ) (pool : PoolId) (range : Extent) : Extent :=
  match currentLOABase, pool with
  | none, .smallObjects => range
  | none, .largeObjects => ⟨range.base, 0⟩
  | some border, .smallObjects => ⟨range.base, min range.top border - range.base⟩
  | some border, .largeObjects => ⟨max range.base border, range.top - max range.base border⟩

/-- The live objects of the sub areas: each lies below the free tail of its sub area. -/
def liveAreas : List SubAreaEntry → List Extent
  | subArea :: next :: rest =>
    ⟨subArea.firstObject, subArea.freeChunk.getD next.firstObject - subArea.firstObject⟩ ::
      liveAreas (next :: rest)
  | _ => []

/-- A pool in front of the rebuilding: reset, with `resetLargestFreeEntry`, and with room for a
header in everything above its minimum. -/
structure IsReset (pool : Pool) : Prop where
  heapFreeList : pool.heapFreeList = []
  freeMemorySize : pool.freeMemorySize = 0
  freeEntryCount : pool.freeEntryCount = 0
  largestFreeEntry : pool.largestFreeEntry = 0
  header_le : sizeofFreeHeader ≤ pool.minimumFreeEntrySize + 1

end OMR.GC.Compact
