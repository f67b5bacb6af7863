import OMR.Lib.Extent

/-!
# The free blocks of a code cache

The allocation of code memory in `OMRCodeCache.cpp` with free-block recycling
enabled. The list that the source threads through the free blocks is a list of
extents. Sizes are computed at 64 bits and wrap around; addresses are natural
numbers. `codeCacheAlignment` is a power of two in the source, for which
`& ~round` rounds down to a multiple; here it is any positive number.
-/

namespace OMR.Compiler

open OMR.Lib

/-- `sizeof(CodeCacheFreeCacheBlock)`. -/
def freeCacheBlockBytes : ℕ := 16

/-- `sizeof(CodeCacheMethodHeader)`. -/
def methodHeaderBytes : ℕ := 16

/-- `MIN_SIZE_BLOCK`. -/
def minSizeBlock : ℕ := 96

/-- `x & ~round`. -/
def roundDown (alignment x : ℕ) : ℕ := x / alignment * alignment

/-- `align`. -/
def alignUp (alignment x : ℕ) : ℕ := roundDown alignment (x + (alignment - 1))

structure CodeCache where
  warmCodeAlloc : ℕ
  coldCodeAlloc : ℕ
  freeBlockList : List Extent
  sizeOfLargestFreeWarmBlock : ℕ
  sizeOfLargestFreeColdBlock : ℕ

namespace CodeCache

/-- What `initialize` leaves: no free block, and the space between the header of
the segment and the preloaded code. -/
def initializeCache (alignment segmentBase ccPreLoadedCodeBase : ℕ) : CodeCache where
  warmCodeAlloc := alignUp alignment (segmentBase + 8)
  coldCodeAlloc := ccPreLoadedCodeBase
  freeBlockList := []
  sizeOfLargestFreeWarmBlock := 0
  sizeOfLargestFreeColdBlock := 0

/-- `a - b < sizeof(CodeCacheFreeCacheBlock)` for unsigned numbers. -/
def closeTo (a b : ℕ) : Prop := b ≤ a ∧ a - b < freeCacheBlockBytes

instance (a b : ℕ) : Decidable (closeTo a b) := inferInstanceAs (Decidable (_ ∧ _))

/-- The first address is warm and the second one is cold. -/
def acrossBorder (c : CodeCache) (a b : ℕ) : Prop := a < c.warmCodeAlloc ∧ b ≥ c.coldCodeAlloc

instance (c : CodeCache) (a b : ℕ) : Decidable (c.acrossBorder a b) :=
  inferInstanceAs (Decidable (_ ∧ _))

/-- The part of `addFreeBlock2WithCallSite` after its loop has stopped at `curr`:
the list from `curr` on, and the block that holds the freed range. -/
def addFreeBlockAt (c : CodeCache) (start stop : ℕ) (curr : Extent) (next : List Extent) :
    List Extent × Extent :=
  let fresh : Extent := ⟨start, stop - start⟩
  let unmerged :=
    if start < curr.base then (fresh :: curr :: next, fresh) else (curr :: fresh :: next, fresh)
  let mergePrevious :=
    if curr.base < start ∧ closeTo start curr.top then
      if ¬ c.acrossBorder curr.base start then
        let link : Extent := ⟨curr.base, stop - curr.base⟩
        (link :: next, link)
      else unmerged
    else unmerged
  if start < curr.base ∧ closeTo curr.base stop then
    if ¬ c.acrossBorder start curr.base then
      let link : Extent := ⟨start, curr.top - start⟩
      (link :: next, link)
    else unmerged
  else
    match next with
    | [] => mergePrevious
    | n :: rest =>
      if closeTo n.base stop ∧ ¬ c.acrossBorder start n.base then
        if closeTo start curr.top ∧ ¬ c.acrossBorder curr.base start then
          let link : Extent := ⟨curr.base, n.top - curr.base⟩
          (link :: rest, link)
        else
          let link : Extent := ⟨start, n.top - start⟩
          (curr :: link :: rest, link)
      else mergePrevious

/-- The loop of `addFreeBlock2WithCallSite`: go on while the next block is below
the freed range. -/
def insertFreeBlock (c : CodeCache) (start stop : ℕ) : List Extent → List Extent × Extent
  | [] => ([⟨start, stop - start⟩], ⟨start, stop - start⟩)
  | curr :: next =>
    match next with
    | [] => c.addFreeBlockAt start stop curr []
    | n :: rest =>
      if n.base < start then
        let r := c.insertFreeBlock start stop (n :: rest)
        (curr :: r.1, r.2)
      else c.addFreeBlockAt start stop curr (n :: rest)

def updateMaxSizeOfFreeBlocks (c : CodeCache) (block : Extent) : CodeCache :=
  if block.base < c.warmCodeAlloc then
    if block.size > c.sizeOfLargestFreeWarmBlock then
      { c with sizeOfLargestFreeWarmBlock := block.size } else c
  else
    if block.size > c.sizeOfLargestFreeColdBlock then
      { c with sizeOfLargestFreeColdBlock := block.size } else c

/-- `addFreeBlock2WithCallSite`. -/
def addFreeBlock2 (alignment : ℕ) (c : CodeCache) (start stop : ℕ) : Bool × CodeCache :=
  let start := alignUp alignment start
  if stop ≤ start + freeCacheBlockBytes then (false, c)
  else
    let r := c.insertFreeBlock start stop c.freeBlockList
    (true, updateMaxSizeOfFreeBlocks { c with freeBlockList := r.1 } r.2)

/-- What the search of `findFreeBlock` remembers. -/
structure Candidates where
  biggest : Option Extent
  secondBiggest : Option Extent
  bestFit : Option Extent

/-- One round of the search for a block of `size` bytes. -/
def Candidates.visit (size : ℕ) (s : Candidates) (curr : Extent) : Candidates :=
  let bestFit :=
    if curr.size ≥ size then
      match s.bestFit with
      | none => some curr
      | some best => if best.size > curr.size then some curr else some best
    else s.bestFit
  match s.biggest with
  | none => ⟨some curr, s.secondBiggest, bestFit⟩
  | some biggest =>
    if curr.size ≥ biggest.size then ⟨some curr, some biggest, bestFit⟩
    else
      match s.secondBiggest with
      | some second =>
        ⟨some biggest, if curr.size ≥ second.size then some curr else some second, bestFit⟩
      | none => ⟨some biggest, some curr, bestFit⟩

/-- The blocks that the search for warm or cold memory looks at. -/
def eligible (c : CodeCache) (isCold : Bool) (e : Extent) : Bool :=
  if isCold then !(decide (e.base < c.coldCodeAlloc)) else !(decide (e.base ≥ c.warmCodeAlloc))

/-- The loop of `findFreeBlock`. -/
def search (c : CodeCache) (size : ℕ) (isCold : Bool) : List Extent → Candidates → Candidates
  | [], s => s
  | curr :: l, s => c.search size isCold l (if c.eligible isCold curr then s.visit size curr else s)

/-- `removeFreeBlock`: what is left of the block stays in the list. -/
def leftOver (size : ℕ) (curr : Extent) : Option Extent :=
  if curr.size - size ≥ minSizeBlock then some ⟨curr.base + size, curr.size - size⟩ else none

/-- The list without the block at `base`, or with what is left of it in its place. -/
def unlink (base : ℕ) (left : Option Extent) : List Extent → List Extent
  | [] => []
  | curr :: next => if curr.base = base then left.toList ++ next else curr :: unlink base left next

/-- `findFreeBlock`: the block taken, with the size that its header gets. -/
def findFreeBlock (c : CodeCache) (size : ℕ) (isCold : Bool) : Option Extent × CodeCache :=
  let s := c.search size isCold c.freeBlockList ⟨none, none, none⟩
  match s.bestFit with
  | none => (none, c)
  | some best =>
    let left := leftOver size best
    let taken : Extent := ⟨best.base, if left.isSome then size else best.size⟩
    let c := { c with freeBlockList := unlink best.base left c.freeBlockList }
    if s.biggest.map Extent.base = some best.base then
      let biggestSize := max ((left.map Extent.size).getD 0) ((s.secondBiggest.map Extent.size).getD 0)
      if isCold then (some taken, { c with sizeOfLargestFreeColdBlock := biggestSize })
      else (some taken, { c with sizeOfLargestFreeWarmBlock := biggestSize })
    else (some taken, c)

/-- `CodeCacheManager::performSizeAdjustments` for one of the two sizes. -/
def adjustSize (alignment : ℕ) (isMethodHeaderNeeded : Bool) (size : ℕ) : ℕ :=
  if size = 0 then 0
  else roundDown alignment
    ((size + (if isMethodHeaderNeeded then methodHeaderBytes else 0) + (alignment - 1)) % 2 ^ 64)

/-- `CodeCacheManager::performSizeAdjustments`. -/
def performSizeAdjustments (alignment warmCodeSize coldCodeSize : ℕ)
    (needsToBeContiguous isMethodHeaderNeeded : Bool) : ℕ × ℕ :=
  if needsToBeContiguous ∧ coldCodeSize ≠ 0 then
    (adjustSize alignment isMethodHeaderNeeded ((warmCodeSize + coldCodeSize) % 2 ^ 64), 0)
  else
    (adjustSize alignment isMethodHeaderNeeded warmCodeSize,
      adjustSize alignment isMethodHeaderNeeded coldCodeSize)

/-- The warm part of `allocateCodeMemory`: the block, which is empty if no warm
memory is asked for. -/
def allocateWarm (alignment : ℕ) (c : CodeCache) (warmSize : ℕ) (warmIsFreeBlock : Bool) :
    Option Extent × CodeCache :=
  if warmIsFreeBlock then c.findFreeBlock warmSize false
  else if warmSize ≠ 0 then
    let warmCodeAddress := alignUp alignment c.warmCodeAlloc
    if warmCodeAddress + warmSize > c.coldCodeAlloc then (none, c)
    else (some ⟨warmCodeAddress, warmSize⟩, { c with warmCodeAlloc := warmCodeAddress + warmSize })
  else (some ⟨c.warmCodeAlloc, 0⟩, c)

/-- The cold part of `allocateCodeMemory`. When it fails, the warm memory is given
back unless it was a free block. -/
def allocateCold (alignment : ℕ) (c : CodeCache) (warm : Extent) (warmIsFreeBlock : Bool)
    (coldSize : ℕ) (coldIsFreeBlock : Bool) : Option Extent × CodeCache :=
  if coldIsFreeBlock then c.findFreeBlock coldSize true
  else if coldSize ≠ 0 then
    let coldCodeAddress := roundDown alignment (c.coldCodeAlloc - coldSize)
    if coldCodeAddress < c.warmCodeAlloc then
      (none, if warmIsFreeBlock then c else { c with warmCodeAlloc := warm.base })
    else (some ⟨coldCodeAddress, coldSize⟩, { c with coldCodeAlloc := coldCodeAddress })
  else (some ⟨c.coldCodeAlloc, 0⟩, c)

/-- `allocateCodeMemory`: the warm and the cold block with their headers, of which
an empty one is no block. -/
def allocateCodeMemory (alignment : ℕ) (c : CodeCache) (warmCodeSize coldCodeSize : ℕ)
    (needsToBeContiguous isMethodHeaderNeeded : Bool) : Option (Extent × Extent) × CodeCache :=
  let sizes := performSizeAdjustments alignment warmCodeSize coldCodeSize needsToBeContiguous
    isMethodHeaderNeeded
  let warmIsFreeBlock := decide (needsToBeContiguous = false ∧ sizes.1 ≠ 0 ∧
    c.sizeOfLargestFreeWarmBlock ≥ sizes.1)
  let coldIsFreeBlock := decide (needsToBeContiguous = false ∧ sizes.2 ≠ 0 ∧
    c.sizeOfLargestFreeColdBlock ≥ sizes.2)
  if sizes.2 ≠ 0 ∧ coldIsFreeBlock = false ∧
      (sizes.2 + (if warmIsFreeBlock then 0 else sizes.1)) % 2 ^ 64 >
        c.coldCodeAlloc - c.warmCodeAlloc then (none, c)
  else
    match c.allocateWarm alignment sizes.1 warmIsFreeBlock with
    | (none, c) => (none, c)
    | (some warm, c) =>
      match c.allocateCold alignment warm warmIsFreeBlock sizes.2 coldIsFreeBlock with
      | (none, c) => (none, c)
      | (some cold, c) => (some (warm, cold), c)

/-- `resizeCodeMemory` of the block whose header is at `block.base`. The header
holds the low 32 bits of the size. Gives the block after the call. -/
def resizeCodeMemory (alignment : ℕ) (c : CodeCache) (block : Extent) (newSize : ℕ) :
    Extent × CodeCache :=
  if newSize = 0 then (block, c)
  else
    let newSize := roundDown alignment ((newSize + methodHeaderBytes + (alignment - 1)) % 2 ^ 64)
    let oldSize := block.size % 2 ^ 32
    if newSize ≥ oldSize then (block, c)
    else
      let shrinkage := oldSize - newSize
      let expectedHeapAlloc := block.base + oldSize
      if expectedHeapAlloc = c.warmCodeAlloc then
        (⟨block.base, newSize⟩, { c with warmCodeAlloc := c.warmCodeAlloc - shrinkage })
      else if shrinkage ≥ minSizeBlock then
        (⟨block.base, newSize⟩,
          (c.addFreeBlock2 alignment (block.base + newSize) expectedHeapAlloc).2)
      else (block, c)

end CodeCache

end OMR.Compiler
