import OMR.Lib.Extent
import OMR.GC.AllocateHint

/-!
# `MM_MemoryPoolAddressOrderedList`

The free list of the pool is the list of its entries in the order of the links,
each entry with its address and its size. A loop over the links is a `takeWhile`
and a `dropWhile`: what `previousFreeEntry` has passed and what
`currentFreeEntry` has reached. Counters are integers, as none of them leaves the
range of a machine word while it is right. `none` is a run of the code that has
no result: a loop that does not end, a failed assertion, or the use of a pointer
that is `NULL` or leads to memory that is no free entry. The assertions on the
order of the links, which the order of the list implies, are left out, and so are
locks, heap walk fillers and the size class statistics.
-/

namespace OMR.GC

open OMR.Lib

/-- `MM_MemoryPoolAddressOrderedList` with the fields of its superclasses. -/
structure Pool where
  minimumFreeEntrySize : ℕ
  heapFreeList : List Extent
  freeMemorySize : ℤ
  freeEntryCount : ℤ
  largestFreeEntry : ℕ
  hints : HintCache
  allocCount : ℕ
  allocBytes : ℕ
  allocSearchCount : ℕ
  allocDiscardedBytes : ℕ
deriving DecidableEq, Repr

/-- `sizeof(MM_HeapLinkedFreeHeader)`. -/
def sizeofFreeHeader : ℕ := 16

/-- `J9MODRON_ALLOCATION_MANAGER_HINT_MAX_WALK`. -/
def hintMaxWalk : ℕ := 20

/-- The decision of `internalRecycleHeapChunk` and `appendToList`: the range becomes a
free entry if a header fits into it and it has the minimum size. -/
def freeEntryIn (minimumSize addrBase addrTop : ℕ) : Option Extent :=
  if sizeofFreeHeader ≤ addrTop - addrBase ∧ minimumSize ≤ addrTop - addrBase then
    some ⟨addrBase, addrTop - addrBase⟩
  else none

namespace Pool

/-- `createFreeEntry` of the pool. -/
def createFreeEntry (p : Pool) (addrBase addrTop : ℕ) : Option Extent :=
  freeEntryIn p.minimumFreeEntrySize addrBase addrTop

-- Allocation

/-- `findHint` of the pool. -/
def findHint (p : Pool) (lookupSize : ℕ) : HintCache × Option AllocateHint :=
  p.hints.findHint (p.heapFreeList.head?.map Extent.base) lookupSize

/-- Where `internalAllocate` begins its walk: the entries before the first one it
looks at, and the rest. A hint that does not name an entry leads it astray. -/
def startOfWalk (list : List Extent) : Option AllocateHint → Option (List Extent × List Extent)
  | none => some ([], list)
  | some hint =>
    match list.dropWhile fun e => e.base ≠ hint.heapFreeHeader with
    | [] => none
    | e :: rest => some (list.takeWhile fun e => e.base ≠ hint.heapFreeHeader, e :: rest)

/-- The largest size in a list of entries, or `start` if that is larger. -/
def largestSize (start : ℕ) (entries : List Extent) : ℕ :=
  entries.foldl (fun largest e => max largest e.size) start

/-- Whether `internalAllocate` records a hint after a walk over `walkCount` entries. -/
def wantsHint (walkCount : ℕ) (allocateHintUsed : Option AllocateHint) : Bool :=
  hintMaxWalk ≤ walkCount || (1 < walkCount && allocateHintUsed.isSome)

/-- The hints after the walk: `addHint(previousFreeEntry, candidateHintSize)` where the
walk was long. -/
def hintsAfterWalk (hints : HintCache) (allocateHintUsed : Option AllocateHint)
    (walked : List Extent) : HintCache :=
  match walked.getLast? with
  | none => hints
  | some previousFreeEntry =>
    if wantsHint walked.length allocateHintUsed then
      let hintSize := (allocateHintUsed.map AllocateHint.size).getD 0
      hints.addHint previousFreeEntry.base (largestSize hintSize walked)
    else hints

/-- `internalAllocate`: the pool and the address allocated, if any. -/
def internalAllocate (p : Pool) (sizeInBytesRequired : ℕ) : Option (Pool × Option ℕ) :=
  let found := p.findHint sizeInBytesRequired
  match startOfWalk p.heapFreeList found.2 with
  | none => none
  | some (before, rest) =>
    let walked := rest.takeWhile fun e => e.size < sizeInBytesRequired
    match rest.dropWhile fun e => e.size < sizeInBytesRequired with
    | [] => some ({ p with hints := found.1, largestFreeEntry := largestSize 0 walked }, none)
    | currentFreeEntry :: next =>
      let hints := hintsAfterWalk found.1 found.2 walked
      let recycleEntrySize := currentFreeEntry.size - sizeInBytesRequired
      let recycleEntry := currentFreeEntry.base + sizeInBytesRequired
      let recycled := p.createFreeEntry recycleEntry (recycleEntry + recycleEntrySize)
      -- without a previousFreeEntry the list begins at what is left of the entry found
      let previous := if walked = [] then [] else before ++ walked
      let p := { p with
        heapFreeList := previous ++ (recycled.toList ++ next)
        freeMemorySize := p.freeMemorySize - sizeInBytesRequired
        allocCount := p.allocCount + 1
        allocBytes := p.allocBytes + sizeInBytesRequired
        allocSearchCount := p.allocSearchCount + walked.length }
      match recycled with
      | some _ =>
        match hints.updateHint currentFreeEntry.base recycleEntry with
        | none => none
        | some hints => some ({ p with hints }, some currentFreeEntry.base)
      | none =>
        some ({ p with
          freeMemorySize := p.freeMemorySize - recycleEntrySize
          freeEntryCount := p.freeEntryCount - 1
          allocDiscardedBytes := p.allocDiscardedBytes + recycleEntrySize
          hints := hints.removeHint currentFreeEntry.base }, some currentFreeEntry.base)

/-- `internalAllocateTLH`: the pool and the range `[addrBase, addrTop)`, if any. -/
def internalAllocateTLH (p : Pool) (maximumSizeInBytesRequired : ℕ) :
    Option (Pool × Option Extent) :=
  match p.heapFreeList with
  | [] => some ({ p with largestFreeEntry := 0 }, none)
  | freeEntry :: entryNext =>
    if freeEntry.size < p.minimumFreeEntrySize then none
    else
      let consumedSize := if maximumSizeInBytesRequired > freeEntry.size then freeEntry.size
        else maximumSizeInBytesRequired
      let recycleEntrySize := freeEntry.size - consumedSize
      -- a remainder that is too small is handed out as well
      let tooSmall : Bool :=
        0 < recycleEntrySize ∧ recycleEntrySize < p.minimumFreeEntrySize
      let consumedSize := if tooSmall then consumedSize + recycleEntrySize else consumedSize
      let recycleEntrySize := if tooSmall then 0 else recycleEntrySize
      let addrTop := freeEntry.base + consumedSize
      let recycled := p.createFreeEntry addrTop (addrTop + recycleEntrySize)
      let p := { p with
        freeMemorySize := p.freeMemorySize - consumedSize
        allocCount := p.allocCount + 1
        allocBytes := p.allocBytes + consumedSize }
      let handedOut := some ⟨freeEntry.base, consumedSize⟩
      if 0 < recycleEntrySize then
        match recycled with
        | some recycled => some ({ p with heapFreeList := recycled :: entryNext }, handedOut)
        | none =>
          some ({ p with
            heapFreeList := entryNext
            freeMemorySize := p.freeMemorySize - recycleEntrySize
            freeEntryCount := p.freeEntryCount - 1
            allocDiscardedBytes := p.allocDiscardedBytes + recycleEntrySize }, handedOut)
      else
        some ({ p with
          heapFreeList := entryNext
          freeEntryCount := p.freeEntryCount - 1 }, handedOut)

-- Free list building

/-- `reset`. -/
def reset (p : Pool) : Pool :=
  { p with
    heapFreeList := []
    freeMemorySize := 0
    freeEntryCount := 0
    hints := p.hints.clearHints }

/-- `rebuildFreeListInRegion`. -/
def rebuildFreeListInRegion (p : Pool) (lowAddress highAddress : ℕ) : Pool :=
  match p.createFreeEntry lowAddress highAddress with
  | some newFreeEntry =>
    { p.reset with
      heapFreeList := [newFreeEntry]
      freeMemorySize := (highAddress - lowAddress : ℕ)
      freeEntryCount := 1 }
  | none => p.reset

/-- `recycleHeapChunk(chunkBase, chunkTop)`: the entries that do not begin above the
chunk come before it. -/
def recycleHeapChunk (p : Pool) (chunkBase chunkTop : ℕ) : Pool × Bool :=
  let previous := p.heapFreeList.takeWhile fun e => e.base ≤ chunkBase
  let next := p.heapFreeList.dropWhile fun e => e.base ≤ chunkBase
  match p.createFreeEntry chunkBase chunkTop with
  | some chunk =>
    ({ p with
      heapFreeList := previous ++ chunk :: next
      freeMemorySize := p.freeMemorySize + (chunkTop - chunkBase : ℕ)
      freeEntryCount := p.freeEntryCount + 1 }, true)
  | none => (p, false)

/-- The last part of `expandWithRange`: a new entry between its neighbours. -/
def insertRange (p : Pool) (previous next : List Extent) (range : Extent) : Pool :=
  { p with
    heapFreeList := previous ++ range :: next
    freeMemorySize := p.freeMemorySize + range.size
    freeEntryCount := p.freeEntryCount + 1
    largestFreeEntry := if range.size > p.largestFreeEntry then range.size
      else p.largestFreeEntry }

/-- The middle part of `expandWithRange`: fuse the range to the head of the next
entry if they touch. -/
def fuseToNext (p : Pool) (previous next : List Extent) (range : Extent) : Pool :=
  match next with
  | [] => p.insertRange previous [] range
  | nextFreeEntry :: rest =>
    if range.top = nextFreeEntry.base then
      { p with
        heapFreeList := previous ++ ⟨range.base, range.size + nextFreeEntry.size⟩ :: rest
        freeMemorySize := p.freeMemorySize + range.size }
    else p.insertRange previous (nextFreeEntry :: rest) range

/-- `expandWithRange` of `[lowAddress, lowAddress + expandSize)`. -/
def expandWithRange (p : Pool) (range : Extent) (canCoalesce : Bool) : Pool :=
  if range.size = 0 then p
  else if range.size < p.minimumFreeEntrySize then p
  else
    let previous := p.heapFreeList.takeWhile fun e => e.base ≤ range.base
    let next := p.heapFreeList.dropWhile fun e => e.base ≤ range.base
    if canCoalesce then
      match previous.getLast? with
      | some previousFreeEntry =>
        if range.base = previousFreeEntry.top then
          { p with
            heapFreeList := previous.dropLast ++
              ⟨previousFreeEntry.base, previousFreeEntry.size + range.size⟩ :: next
            freeMemorySize := p.freeMemorySize + range.size }
        else p.fuseToNext previous next range
      | none => p.fuseToNext previous next range
    else p.insertRange previous next range

/-- `contractWithRange` of `[lowAddress, lowAddress + contractSize)`. -/
def contractWithRange (p : Pool) (range : Extent) : Option (Pool × Option ℕ) :=
  if range.size = 0 then some (p, none)
  else
    let previous := p.heapFreeList.takeWhile fun e => ¬ range.Within e
    match p.heapFreeList.dropWhile fun e => ¬ range.Within e with
    | [] => none
    | currentFreeEntry :: next =>
      let trailing := if currentFreeEntry.top ≠ range.top then
        p.createFreeEntry range.top currentFreeEntry.top else none
      let leading := if currentFreeEntry.base ≠ range.base then
        p.createFreeEntry currentFreeEntry.base range.base else none
      -- what is too small to be kept is contracted as well
      let trailingSize := if trailing.isSome then 0 else currentFreeEntry.top - range.top
      let leadingSize := if leading.isSome then 0 else range.base - currentFreeEntry.base
      let contractCount : ℤ := 1 - trailing.toList.length - leading.toList.length
      some ({ p with
        heapFreeList := previous ++ (leading.toList ++ trailing.toList ++ next)
        freeMemorySize := p.freeMemorySize - (range.size + trailingSize + leadingSize : ℕ)
        freeEntryCount := p.freeEntryCount - contractCount }, some range.base)

/-- `addFreeEntries` of a list with the given number of entries and bytes. -/
def addFreeEntries (p : Pool) (freeList : List Extent) (freeListMemoryCount : ℕ)
    (freeListMemorySize : ℕ) : Option Pool :=
  match freeList, freeList.getLast? with
  | freeListHead :: freeListRest, some freeListTail =>
    let previous := p.heapFreeList.takeWhile fun e => e.base ≤ freeListHead.base
    let next := p.heapFreeList.dropWhile fun e => e.base ≤ freeListHead.base
    let merged : List Extent × Bool :=
      match previous.getLast?, next with
      | none, heapHead :: heapRest =>
        if freeListTail.top = heapHead.base then
          (freeList.dropLast ++ ⟨freeListTail.base, freeListTail.size + heapHead.size⟩ :: heapRest,
            true)
        else (freeList ++ next, false)
      | none, [] => (freeList, false)
      | some previousFreeEntry, next =>
        if previousFreeEntry.top = freeListHead.base then
          (previous.dropLast ++
            ⟨previousFreeEntry.base, previousFreeEntry.size + freeListHead.size⟩ ::
              (freeListRest ++ next), true)
        else (previous ++ (freeList ++ next), false)
    let localFreeListMemoryCount : ℤ := freeListMemoryCount - if merged.2 then 1 else 0
    some { p with
      heapFreeList := merged.1
      freeMemorySize := p.freeMemorySize + freeListMemorySize
      freeEntryCount := p.freeEntryCount + localFreeListMemoryCount }
  | _, _ => none

/-- What `removeFreeEntriesWithinRange` returns. -/
structure RemovedEntries where
  found : Bool
  retList : List Extent
  retListMemoryCount : ℕ
  retListMemorySize : ℕ
deriving DecidableEq, Repr

/-- The last chunk that `removeFreeEntriesWithinRange` may have to cut: the entries that
stay, those that are returned, and what is to be added to `removeSize` and `removeCount`. -/
def cutLast (p : Pool) (highAddress minimumSize : ℕ) (rest : List Extent) :
    List Extent × List Extent × ℕ × ℤ :=
  match rest with
  | [] => ([], [], 0, 0)
  | currentFreeEntry :: tail =>
    if currentFreeEntry.base < highAddress then
      let trailing := p.createFreeEntry highAddress currentFreeEntry.top
      let trailingSize := if trailing.isSome then currentFreeEntry.top - highAddress else 0
      (trailing.toList ++ tail,
        (freeEntryIn minimumSize currentFreeEntry.base highAddress).toList,
        currentFreeEntry.size - trailingSize, 1 - trailing.toList.length)
    else (currentFreeEntry :: tail, [], 0, 0)

/-- `removeFreeEntriesWithinRange`. -/
def removeFreeEntriesWithinRange (p : Pool) (lowAddress highAddress minimumSize : ℕ) :
    Pool × RemovedEntries :=
  let outside (e : Extent) : Bool := ¬ (lowAddress ≤ e.base ∨ lowAddress < e.top)
  let previous := p.heapFreeList.takeWhile outside
  match p.heapFreeList.dropWhile outside with
  | [] => (p, ⟨false, [], 0, 0⟩)
  | currentFreeEntry :: next =>
    if highAddress ≤ currentFreeEntry.base then (p, ⟨false, [], 0, 0⟩)
    else
      let leading := if currentFreeEntry.base < lowAddress then
        p.createFreeEntry currentFreeEntry.base lowAddress else none
      let baseAddr := if currentFreeEntry.base < lowAddress then lowAddress
        else currentFreeEntry.base
      let trailing := if highAddress < currentFreeEntry.top then
        p.createFreeEntry highAddress currentFreeEntry.top else none
      let topAddr := if highAddress < currentFreeEntry.top then highAddress
        else currentFreeEntry.top
      let leadingSize := if leading.isSome then lowAddress - currentFreeEntry.base else 0
      let trailingSize := if trailing.isSome then currentFreeEntry.top - highAddress else 0
      let first := (freeEntryIn minimumSize baseAddr topAddr).toList
      -- the entries that lie in the range with all their bytes
      let whole := next.takeWhile fun e => e.top ≤ highAddress
      let wholeReturned := whole.filterMap fun e => freeEntryIn minimumSize e.base e.top
      let last := p.cutLast highAddress minimumSize
        (next.dropWhile fun e => e.top ≤ highAddress)
      let retList := first ++ wholeReturned ++ last.2.1
      let removeSize : ℕ := currentFreeEntry.size - leadingSize - trailingSize +
        totalSize whole + last.2.2.1
      let removeCount : ℤ := 1 - leading.toList.length - trailing.toList.length +
        whole.length + last.2.2.2
      ({ p with
        heapFreeList := previous ++ (leading.toList ++ trailing.toList ++ last.1)
        freeMemorySize := p.freeMemorySize - removeSize
        freeEntryCount := p.freeEntryCount - removeCount },
        ⟨true, retList, retList.length, totalSize retList⟩)

end Pool

end OMR.GC
