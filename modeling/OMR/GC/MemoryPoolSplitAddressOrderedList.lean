import OMR.GC.MemoryPoolAddressOrderedList

/-!
# `MM_MemoryPoolSplitAddressOrderedList`

The pool keeps its entries in several address-ordered lists, each with counters and
hints of its own, and sets the largest entry aside as the reserved one. The reserved
entry is known by the list it is on and by the entry before it there. As in the plain
pool, a list is the list of its entries in the order of the links, and `none` is a run
of the code that has no result. The environment of a call is known by its id; locks are
left out but for the number of times each list was locked, which the search looks at,
and `replenishPoolForAllocate` has nothing to give.
-/

namespace OMR.GC

open OMR.Lib

/-- A link to a free entry: `NULL`, the address of an entry, or the value `UDATA_MAX`, which
is no entry's address. -/
inductive Link where
  | null
  | entry (address : ℕ)
  | udataMax
deriving DecidableEq, Repr

/-- The link to the last entry of a list, `NULL` if there is none. -/
def Link.last (entries : List Extent) : Link :=
  match entries.getLast? with
  | none => .null
  | some e => .entry e.base

/-- The order of links as pointers. -/
def Link.le : Link → Link → Bool
  | .null, _ => true
  | .entry a, .entry b => a ≤ b
  | _, .udataMax => true
  | _, _ => false

/-- `J9ModronFreeList`. -/
structure FreeList where
  freeList : List Extent
  freeSize : ℕ
  freeCount : ℕ
  timesLocked : ℕ
  hints : HintCache
deriving DecidableEq, Repr

namespace FreeList

variable (list : FreeList)

/-- The entries behind a link: all of them behind `NULL`, which stands for the list itself. -/
def next : Link → List Extent
  | .null => list.freeList
  | .entry address => (list.freeList.dropWhile fun e => e.base ≠ address).tail
  | .udataMax => []

/-- The entries up to a link, and then `tail`: `setNextForFreeEntryInFreeList`. -/
def setNext (tail : List Extent) : Link → List Extent
  | .entry address =>
    list.freeList.takeWhile (fun e => e.base ≠ address) ++
      ((list.freeList.dropWhile fun e => e.base ≠ address).take 1 ++ tail)
  | _ => tail

/-- `findHint`. -/
def findHint (lookupSize : ℕ) : HintCache × Option AllocateHint :=
  list.hints.findHint (list.freeList.head?.map Extent.base) lookupSize

/-- `updateHint`, which asserts that at most one hint names the entry. -/
def updateHint (oldFreeEntry newFreeEntry : ℕ) : Option FreeList :=
  if 1 < list.hints.hintActive.countP fun hint => hint.heapFreeHeader = oldFreeEntry then none
  else (list.hints.updateHint oldFreeEntry newFreeEntry).map fun hints => { list with hints }

/-- `removeHint`. -/
def removeHint (freeEntry : ℕ) : FreeList :=
  { list with hints := list.hints.removeHint freeEntry }

/-- `reset`. -/
def reset : FreeList := ⟨[], 0, 0, 0, list.hints.clearHints⟩

end FreeList

/-- `MM_MemoryPoolSplitAddressOrderedList` with the fields of its superclasses. -/
structure SplitPool where
  minimumFreeEntrySize : ℕ
  heapFreeListCount : ℕ
  heapFreeLists : ℕ → FreeList
  currentThreadFreeList : ℕ → ℕ
  reservedFreeEntrySize : ℕ
  previousReservedFreeEntry : Link
  reservedFreeListIndex : ℕ
  reservedFreeEntryAvaliable : Bool
  largestFreeEntry : ℕ
  allocCount : ℕ
  allocBytes : ℕ
  allocSearchCount : ℕ
  allocDiscardedBytes : ℕ

namespace SplitPool

variable (p : SplitPool)

/-- The entries of a list. -/
def entries (i : ℕ) : List Extent := (p.heapFreeLists i).freeList

/-- Write a list. -/
def setList (i : ℕ) (list : FreeList) : SplitPool :=
  { p with heapFreeLists := Function.update p.heapFreeLists i list }

/-- Write the list that the threads of an environment begin with. -/
def setCurrentThreadFreeList (environmentId i : ℕ) : SplitPool :=
  { p with
    currentThreadFreeList :=
      Function.update p.currentThreadFreeList (environmentId % p.heapFreeListCount) i }

/-- Count a locking of a list. -/
def acquire (i : ℕ) (lockingRequired : Bool) : SplitPool :=
  if lockingRequired then
    p.setList i { p.heapFreeLists i with timesLocked := (p.heapFreeLists i).timesLocked + 1 }
  else p

/-- `isPreviousReservedFreeEntry`. -/
def isPreviousReservedFreeEntry (previousFreeEntry : Link) (curFreeList : ℕ) : Bool :=
  previousFreeEntry = p.previousReservedFreeEntry ∧ curFreeList = p.reservedFreeListIndex

/-- `getReservedFreeEntry`: the entries from the reserved one on, none if it is not
available. The assertions fail where there is no such entry or it has another size. -/
def getReservedFreeEntry : Option (List Extent) :=
  if p.reservedFreeEntryAvaliable then
    if p.reservedFreeListIndex < p.heapFreeListCount then
      match (p.heapFreeLists p.reservedFreeListIndex).next p.previousReservedFreeEntry with
      | [] => none
      | e :: rest => if e.size = p.reservedFreeEntrySize then some (e :: rest) else none
    else none
  else some []

/-- `resetReservedFreeEntry`. -/
def resetReservedFreeEntry : SplitPool :=
  { p with
    reservedFreeEntryAvaliable := false
    reservedFreeEntrySize := 0
    previousReservedFreeEntry := .udataMax
    reservedFreeListIndex := p.heapFreeListCount }

/-- `findGoodStartFreeList`: the first of the non-empty lists that were locked least. -/
def findGoodStartFreeList : ℕ :=
  ((List.range p.heapFreeListCount).foldl (fun best i =>
    if p.entries i ≠ [] ∧ (p.heapFreeLists i).timesLocked < best.2 then
      (i, (p.heapFreeLists i).timesLocked)
    else best) (0, 2 ^ 64 - 1)).1

/-- What a search ends with: the list, the list it would suggest to begin with, the link
to the entry before the one found, that entry, and those behind it. -/
structure Found where
  curFreeList : ℕ
  suggestedFreeList : ℕ
  previousFreeEntry : Link
  freeEntry : Extent
  entryNext : List Extent

-- internalAllocate

/-- The variables of the walk in `internalAllocateFromList`. -/
structure Walk where
  previousFreeEntry : Link
  candidateHintEntry : Option ℕ
  candidateHintSize : ℕ
  walkCount : ℕ
  largestFreeEntry : ℕ

/-- The loop of `internalAllocateFromList`: the variables at its end and the entries from
the one found on. The reserved entry is passed over, and is no candidate for a hint. -/
def walkList (sizeInBytesRequired curFreeList : ℕ) : List Extent → Walk → Walk × List Extent
  | [], w => (w, [])
  | e :: rest, w =>
    let w := { w with largestFreeEntry := max w.largestFreeEntry e.size }
    let reserved := p.isPreviousReservedFreeEntry w.previousFreeEntry curFreeList
    if sizeInBytesRequired ≤ e.size ∧ reserved = false then (w, e :: rest)
    else
      walkList sizeInBytesRequired curFreeList rest { w with
        previousFreeEntry := .entry e.base
        candidateHintEntry := if reserved then w.candidateHintEntry else some e.base
        candidateHintSize := if reserved then w.candidateHintSize
          else max w.candidateHintSize e.size
        walkCount := w.walkCount + 1 }

/-- The hints after a walk: `addHint(candidateHintEntry, candidateHintSize)` where the walk was
long and has found an entry. -/
def hintsAfterWalk (found : HintCache × Option AllocateHint) (result : Walk × List Extent) :
    HintCache :=
  if result.2 ≠ [] ∧ Pool.wantsHint result.1.walkCount found.2 = true then
    found.1.addHint (result.1.candidateHintEntry.getD 0) result.1.candidateHintSize
  else found.1

/-- `internalAllocateFromList`: the variables of the walk and the entries from the one found
on. The assertions on the entry that a hint names are that it is no larger than the hint
says and too small for the request. -/
def internalAllocateFromList (sizeInBytesRequired curFreeList largestFreeEntry : ℕ) :
    Option (SplitPool × Walk × List Extent) :=
  let found := (p.heapFreeLists curFreeList).findHint sizeInBytesRequired
  match Pool.startOfWalk (p.entries curFreeList) found.2 with
  | none => none
  | some (_, rest) =>
    if ∃ hint ∈ found.2, ∃ e ∈ rest.head?, hint.size < e.size ∨ sizeInBytesRequired ≤ e.size then
      none
    else
      let result := p.walkList sizeInBytesRequired curFreeList rest
        ⟨.null, none, (found.2.map AllocateHint.size).getD 0, 0, largestFreeEntry⟩
      let hints := hintsAfterWalk found result
      some ({ p.setList curFreeList { p.heapFreeLists curFreeList with hints } with
        allocSearchCount := p.allocSearchCount + result.1.walkCount }, result)

/-- A list is looked at by `internalAllocate` in its first pass, which passes over the reserved
entry. The largest entry seen so far goes along. -/
def visitList (sizeInBytesRequired : ℕ) (lockingRequired : Bool) (p : SplitPool)
    (curFreeList suggestedFreeList largestFreeEntry : ℕ) :
    Option (SplitPool × ℕ × Option Found) :=
  if p.entries curFreeList = [] then some (p, largestFreeEntry, none)
  else
    ((p.acquire curFreeList lockingRequired).internalAllocateFromList sizeInBytesRequired
      curFreeList largestFreeEntry).map fun (p, w, rest) =>
        (p, w.largestFreeEntry, rest.head?.map fun e =>
          ⟨curFreeList, suggestedFreeList, w.previousFreeEntry, e, rest.tail⟩)

/-- The loop of the first pass of `internalAllocate` and of `internalAllocateTLH`: after the
first list it goes on with the suggested one and comes back to it. -/
def searchLists (visit : SplitPool → ℕ → ℕ → ℕ → Option (SplitPool × ℕ × Option Found)) :
    (fuel : ℕ) → (p : SplitPool) → (curFreeList suggestedFreeList largestFreeEntry : ℕ) →
      (firstIteration : Bool) → Option (SplitPool × ℕ × Option Found)
  | 0, _, _, _, _, _ => none
  | fuel + 1, p, cur, suggested, largest, firstIteration =>
    match visit p cur suggested largest with
    | none => none
    | some (p, largest, some found) => some (p, largest, some found)
    | some (p, largest, none) =>
      if firstIteration then
        let suggested := p.findGoodStartFreeList
        searchLists visit fuel p suggested suggested largest false
      else
        let cur := (cur + 1) % p.heapFreeListCount
        if cur ≠ suggested then searchLists visit fuel p cur suggested largest false
        else some (p, largest, none)

/-- The second pass, which looks at the reserved entry only; `internalAllocate` asserts
that it is available. -/
def searchReserved (lockingRequired assertAvaliable : Bool) :
    Option (SplitPool × Option Found) :=
  let cur := p.reservedFreeListIndex
  if cur = p.heapFreeListCount ∨ p.entries cur = [] then some (p, none)
  else if assertAvaliable ∧ p.reservedFreeEntryAvaliable = false then none
  else
    let p := p.acquire cur lockingRequired
    p.getReservedFreeEntry.map fun rest =>
      (p, rest.head?.map fun e => ⟨cur, cur, p.previousReservedFreeEntry, e, rest.tail⟩)

/-- What becomes of the reserved entry when the entry found gives way to `recycled`. The
assertion is that only the list of the reserved entry has the entry before it. -/
def updateReserved (found : Found) (skipReserved : Bool) (recycled : Option Extent) :
    Option SplitPool :=
  if skipReserved = false ∧
      p.isPreviousReservedFreeEntry found.previousFreeEntry found.curFreeList then
    match recycled with
    | some recycleEntry => some { p with reservedFreeEntrySize := recycleEntry.size }
    | none => some p.resetReservedFreeEntry
  else if Link.entry found.freeEntry.base = p.previousReservedFreeEntry then
    if found.curFreeList = p.reservedFreeListIndex then
      some { p with previousReservedFreeEntry :=
        match recycled with
        | some recycleEntry => .entry recycleEntry.base
        | none => found.previousFreeEntry }
    else none
  else some p

/-- The entry found gives way to what is left of it behind the first `consumedSize` bytes,
if that is enough for an entry. -/
def consume (found : Found) (skipReserved : Bool) (consumedSize : ℕ) : Option SplitPool :=
  let i := found.curFreeList
  let list := p.heapFreeLists i
  let recycleEntrySize := found.freeEntry.size - consumedSize
  let addrTop := found.freeEntry.base + consumedSize
  let recycled := freeEntryIn p.minimumFreeEntrySize addrTop (addrTop + recycleEntrySize)
  if list.freeSize < consumedSize then none
  else
    let list := { list with
      freeSize := list.freeSize - consumedSize
      freeList := list.setNext (recycled.toList ++ found.entryNext) found.previousFreeEntry }
    match p.updateReserved found skipReserved recycled with
    | none => none
    | some p =>
      let p := { p with
        allocCount := p.allocCount + 1
        allocBytes := p.allocBytes + consumedSize }
      match recycled with
      | some recycleEntry =>
        (list.updateHint found.freeEntry.base recycleEntry.base).map (p.setList i)
      | none =>
        if list.freeSize < recycleEntrySize ∨ list.freeCount = 0 then none
        else
          let list := { list with
            freeSize := list.freeSize - recycleEntrySize
            freeCount := list.freeCount - 1 }
          let p := { p with allocDiscardedBytes := p.allocDiscardedBytes + recycleEntrySize }
          some (p.setList i (list.removeHint found.freeEntry.base))

/-- The end of `internalAllocate` with an entry found. -/
def allocateFound (found : Found) (skipReserved : Bool) (environmentId sizeInBytesRequired : ℕ) :
    Option (SplitPool × Option Extent) :=
  (p.consume found skipReserved sizeInBytesRequired).map fun p =>
    let p :=
      -- the suggested list is used again unless it is empty
      if p.entries found.suggestedFreeList ≠ [] then
        p.setCurrentThreadFreeList environmentId found.suggestedFreeList
      else p
    (p, some ⟨found.freeEntry.base, sizeInBytesRequired⟩)

/-- `internalAllocate`: the pool and the bytes allocated, if any. -/
def internalAllocate (environmentId sizeInBytesRequired : ℕ) (lockingRequired : Bool) :
    Option (SplitPool × Option Extent) :=
  let start := p.currentThreadFreeList (environmentId % p.heapFreeListCount)
  match searchLists (visitList sizeInBytesRequired lockingRequired) (p.heapFreeListCount + 1) p
      start start 0 true with
  | none => none
  | some (p, _, some found) => p.allocateFound found true environmentId sizeInBytesRequired
  | some (p, largest, none) =>
    if sizeInBytesRequired ≤ p.reservedFreeEntrySize then
      match p.searchReserved lockingRequired true with
      | none => none
      | some (p, some found) => p.allocateFound found false environmentId sizeInBytesRequired
      | some (p, none) => some ({ p with largestFreeEntry := largest }, none)
    else some ({ p with largestFreeEntry := largest }, none)

-- internalAllocateTLH

/-- A list is looked at by `internalAllocateTLH` in its first pass: its first entry, or the
second where the first is the reserved one. -/
def visitListTLH (lockingRequired : Bool) (p : SplitPool)
    (curFreeList suggestedFreeList largestFreeEntry : ℕ) :
    Option (SplitPool × ℕ × Option Found) :=
  match p.entries curFreeList with
  | [] => some (p, largestFreeEntry, none)
  | freeEntry :: rest =>
    let p := p.acquire curFreeList lockingRequired
    if p.isPreviousReservedFreeEntry .null curFreeList then
      some (p, largestFreeEntry, rest.head?.map fun e =>
        ⟨curFreeList, suggestedFreeList, .entry freeEntry.base, e, rest.tail⟩)
    else
      some (p, largestFreeEntry, some ⟨curFreeList, suggestedFreeList, .null, freeEntry, rest⟩)

/-- The end of `internalAllocateTLH` with an entry found. What is left over and too small is
handed out as well. -/
def allocateFoundTLH (found : Found) (skipReserved : Bool)
    (environmentId maximumSizeInBytesRequired : ℕ) : Option (SplitPool × Option Extent) :=
  let freeEntrySize := found.freeEntry.size
  let p := p.setCurrentThreadFreeList environmentId found.curFreeList
  if freeEntrySize < p.minimumFreeEntrySize then none
  else
    let consumedSize := if maximumSizeInBytesRequired > freeEntrySize then freeEntrySize
      else maximumSizeInBytesRequired
    let consumedSize :=
      if freeEntrySize - consumedSize < p.minimumFreeEntrySize then freeEntrySize
      else consumedSize
    (p.consume found skipReserved consumedSize).map fun p =>
      (p, some ⟨found.freeEntry.base, consumedSize⟩)

/-- `internalAllocateTLH`: the pool and the bytes `[addrBase, addrTop)`, if any. -/
def internalAllocateTLH (environmentId maximumSizeInBytesRequired : ℕ) (lockingRequired : Bool) :
    Option (SplitPool × Option Extent) :=
  let start := p.currentThreadFreeList (environmentId % p.heapFreeListCount)
  match searchLists (visitListTLH lockingRequired) (p.heapFreeListCount + 1) p start start 0
      true with
  | none => none
  | some (p, _, some found) =>
    p.allocateFoundTLH found true environmentId maximumSizeInBytesRequired
  | some (p, _, none) =>
    if p.reservedFreeEntrySize ≠ 0 then
      match p.searchReserved lockingRequired false with
      | none => none
      | some (p, some found) =>
        p.allocateFoundTLH found false environmentId maximumSizeInBytesRequired
      | some (p, none) => some ({ p with largestFreeEntry := 0 }, none)
    else some ({ p with largestFreeEntry := 0 }, none)

-- Free list building

/-- `reset`. -/
def reset : SplitPool :=
  { p.resetReservedFreeEntry with heapFreeLists := fun i => (p.heapFreeLists i).reset }

/-- The reserved entry becomes the one behind `previous` on the list `index`. -/
def setReserved (size index : ℕ) (previous : Link) : SplitPool :=
  { p with
    reservedFreeEntrySize := size
    reservedFreeListIndex := index
    previousReservedFreeEntry := previous
    reservedFreeEntryAvaliable := true }

/-- The loop of `postProcess` over the entries: `passed` are the entries of the current list
up to the one the loop has come to. -/
def splitEntries (freeListSplitSize lastFreeListIndex : ℕ) :
    (entries : List Extent) → (p : SplitPool) → (currentFreeListIndex : ℕ) →
      (passed : List Extent) → SplitPool
  | [], p, _, _ => p
  | e :: rest, p, i, passed =>
    let list := p.heapFreeLists i
    let list := { list with
      freeSize := list.freeSize + e.size
      freeCount := list.freeCount + 1 }
    let p := p.setList i list
    let p := if e.size > p.reservedFreeEntrySize then p.setReserved e.size i (Link.last passed)
      else p
    if list.freeSize ≥ freeListSplitSize ∧ i < lastFreeListIndex then
      let p := p.setList i { list with freeList := passed ++ [e] }
      let p := p.setList (i + 1)
        { p.heapFreeLists (i + 1) with freeList := rest, freeSize := 0, freeCount := 0 }
      splitEntries freeListSplitSize lastFreeListIndex rest p (i + 1) []
    else splitEntries freeListSplitSize lastFreeListIndex rest p i (passed ++ [e])

/-- What `postProcess` reads of a `MM_ParallelSweepChunk`. -/
structure SplitChunk where
  ownMemoryPool : Bool
  splitCandidate : Option ℕ
  splitCandidatePreviousEntry : Link
  accumulatedFreeSize : ℕ
  accumulatedFreeHoles : ℕ

/-- What `postProcess` reads of `MM_SweepPoolState`, and the chunks prepared for splitting. -/
structure SweepPoolState where
  sweepFreeBytes : ℕ
  sweepFreeHoles : ℕ
  largestFreeEntry : ℕ
  previousLargestFreeEntry : Link
  chunks : List SplitChunk

/-- The list is cut in front of the split candidate of a chunk: the size and the number of
holes of the list so far, the next list, and the reserved entry if it is found here. -/
def splitAt (previousLargestFreeEntry : Link) (chunk : SplitChunk) (splitCandidate i freeSize
    freeHoles : ℕ) : SplitPool :=
  let list := p.heapFreeLists i
  let p := p.setList i { list with
    freeCount := freeHoles
    freeSize := freeSize
    freeList := list.setNext [] chunk.splitCandidatePreviousEntry }
  let p :=
    if p.reservedFreeListIndex = p.heapFreeListCount ∧
        previousLargestFreeEntry.le chunk.splitCandidatePreviousEntry then
      if previousLargestFreeEntry = chunk.splitCandidatePreviousEntry then
        p.setReserved p.reservedFreeEntrySize (i + 1) .null
      else p.setReserved p.reservedFreeEntrySize i previousLargestFreeEntry
    else p
  p.setList (i + 1) { p.heapFreeLists (i + 1) with
    freeList := list.freeList.dropWhile fun e => e.base ≠ splitCandidate }

/-- The loop of `postProcess` over the chunks: the pool, the list it has come to, and the
accumulated size and holes of the lists before that. -/
def splitChunks (freeListSplitSize : ℕ) (previousLargestFreeEntry : Link) :
    (chunks : List SplitChunk) → (p : SplitPool) →
      (currentFreeListIndex accumulatedFreeSize accumulatedFreeHoles : ℕ) →
      Option (SplitPool × ℕ × ℕ × ℕ)
  | [], p, i, size, holes => some (p, i, size, holes)
  | chunk :: rest, p, i, size, holes =>
    if p.heapFreeListCount ≤ i + 1 then some (p, i, size, holes)
    else
      match chunk.ownMemoryPool, chunk.splitCandidate with
      | true, some splitCandidate =>
        let currentFreeListSize := chunk.accumulatedFreeSize - size
        if freeListSplitSize ≤ currentFreeListSize then
          -- the candidate is not the head of the whole list, or its tail is not terminated
          if chunk.splitCandidatePreviousEntry = .null then none
          else
            splitChunks freeListSplitSize previousLargestFreeEntry rest
              (p.splitAt previousLargestFreeEntry chunk splitCandidate i currentFreeListSize
                (chunk.accumulatedFreeHoles - holes))
              (i + 1) chunk.accumulatedFreeSize chunk.accumulatedFreeHoles
        else splitChunks freeListSplitSize previousLargestFreeEntry rest p i size holes
      | _, _ => splitChunks freeListSplitSize previousLargestFreeEntry rest p i size holes

/-- The part of `postProcess` after a sweep. -/
def splitAfterSweep (sweep : SweepPoolState) : Option SplitPool :=
  let p := p.setList 0 { p.heapFreeLists 0 with
    freeSize := sweep.sweepFreeBytes
    freeCount := sweep.sweepFreeHoles }
  let largest := (p.heapFreeLists 0).next sweep.previousLargestFreeEntry
  if 0 < sweep.largestFreeEntry ∧
      largest.head?.map Extent.size ≠ some sweep.largestFreeEntry then none
  else
    let p := { p with reservedFreeEntrySize := sweep.largestFreeEntry }
    match splitChunks (sweep.sweepFreeBytes / p.heapFreeListCount) sweep.previousLargestFreeEntry
        sweep.chunks p 0 0 0 with
    | none => none
    | some (p, i, size, holes) =>
      let p := if p.reservedFreeListIndex = p.heapFreeListCount then
          p.setReserved p.reservedFreeEntrySize i sweep.previousLargestFreeEntry
        else p
      some (p.setList i { p.heapFreeLists i with
        freeSize := sweep.sweepFreeBytes - size
        freeCount := sweep.sweepFreeHoles - holes })

/-- The part of `postProcess` that splits at entries. -/
def splitAtEntries : SplitPool :=
  let list := p.heapFreeLists 0
  splitEntries (list.freeSize / p.heapFreeListCount) (p.heapFreeListCount - 1) list.freeList
    (p.setList 0 { list with freeSize := 0, freeCount := 0 }) 0 []

/-- `MM_MemoryPool::Cause`. -/
inductive Cause where
  | forSweep
  | forCompact
  | any
deriving DecidableEq, Repr

/-- After a compaction, what it left in the last list is moved to the first. -/
def moveCompacted : SplitPool :=
  let last := p.heapFreeLists (p.heapFreeListCount - 1)
  let p := p.setList 0 { p.heapFreeLists 0 with
    freeList := last.freeList
    freeCount := last.freeCount
    freeSize := last.freeSize }
  p.setList (p.heapFreeListCount - 1) { last with freeList := [], freeCount := 0, freeSize := 0 }

/-- The start of each thread, and the assertions at the end of `postProcess`. -/
def finishPostProcess : Option SplitPool :=
  let p := { p with
    currentThreadFreeList := fun i =>
      if i < p.heapFreeListCount then i else p.currentThreadFreeList i }
  if p.reservedFreeEntryAvaliable = false then none
  else if 0 < p.reservedFreeEntrySize then p.getReservedFreeEntry.map fun _ => p
  else some p

/-- `postProcess`. -/
def postProcess (cause : Cause) (sweep : SweepPoolState) : Option SplitPool :=
  let p := if cause = .forCompact ∧ p.heapFreeListCount - 1 ≠ 0 then p.moveCompacted else p
  if p.entries 0 = [] then some p
  else
    let p := p.resetReservedFreeEntry
    if cause = .forSweep then (p.splitAfterSweep sweep).bind finishPostProcess
    else p.splitAtEntries.finishPostProcess

end SplitPool

end OMR.GC
