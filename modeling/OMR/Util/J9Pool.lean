import Mathlib.Tactic

/-!
# `J9Pool`

The model of `util/pool/pool.c` and `pool_ensureCapacity` of `pool_cap.c` on a
64-bit platform. A puddle is known by its address. The links `nextPuddle` and
`nextAvailablePuddle` are the lists `puddles` and `available`; `prevPuddle` is the
order of the first list read backwards, and `prevAvailablePuddle`, which the code
does not always keep up, is a field of the puddle. The chain of free slots is the
list of their indices. The address that `memAlloc` returns is an argument of
the operations that may allocate. `none` is a run without a result: the use of a
`NULL` pointer, or a `pool_new` whose loop does not end.
-/

namespace OMR.Util.Pool

/-- `sizeof(J9PoolPuddle)`. -/
def sizeofPuddle : ℕ := 64

/-- `sizeof(J9SRP)`. -/
def sizeofSRP : ℕ := 4

/-- `MALLOC_ALIGNMENT` and `MIN_GRANULARITY`. -/
def mallocAlignment : ℕ := 8

/-- `HOLE_FREQUENCY`. -/
def holeFrequency : ℕ := 16

/-- `OS_PAGE_SIZE`. -/
def osPageSize : ℕ := 4096

/-- `ROUND_TO`. -/
def roundTo (granularity number : ℕ) : ℕ :=
  if number % granularity ≠ 0 then number + granularity - number % granularity else number

/-- Truncation to `uint32_t`. -/
def u32 (n : ℕ) : ℕ := n % 2 ^ 32

/-- The difference of two `uint32_t`. -/
def sub32 (m n : ℕ) : ℕ := u32 (m + 2 ^ 32 - n)

/-- `J9PoolPuddle`: the counter, the slot bitmap, the chain from `firstFreeSlot` and
the link to the previous available puddle. -/
structure J9PoolPuddle where
  usedElements : ℕ
  slotFree : ℕ → Bool
  freeChain : List ℕ
  prevAvailablePuddle : Option ℕ

namespace J9PoolPuddle

variable (contents : J9PoolPuddle)

/-- `MARK_SLOT_USED` on the first slot of the chain, which goes on with `nextFreeElement`. -/
def takeSlot (slot : ℕ) (nextFreeElement : List ℕ) : J9PoolPuddle :=
  { contents with
    usedElements := contents.usedElements + 1
    slotFree := Function.update contents.slotFree slot false
    freeChain := nextFreeElement }

/-- `MARK_SLOT_FREE` on a slot, which becomes the first of the chain. -/
def freeSlot (slot : ℕ) : J9PoolPuddle :=
  { contents with
    usedElements := contents.usedElements - 1
    slotFree := Function.update contents.slotFree slot true
    freeChain := slot :: contents.freeChain }

end J9PoolPuddle

/-- The fields of `J9Pool` that say how a puddle is laid out. -/
structure PuddleShape where
  elementSize : ℕ
  elementsPerPuddle : ℕ
  puddleAllocSize : ℕ
  alignment : ℕ
  usesHoles : Bool

namespace PuddleShape

variable (shape : PuddleShape)

/-- `J9POOLPUDDLE_FIRSTELEMENTADDRESS` as `poolPuddle_init` sets it. -/
def firstElementAddress (puddle : ℕ) : ℕ :=
  let firstElementAlignment :=
    if shape.usesHoles then shape.elementSize * holeFrequency else shape.alignment
  roundTo firstElementAlignment (puddle + sizeofPuddle + (shape.elementsPerPuddle + 31) / 32 * 4)

/-- The address of a slot. -/
def elementAddress (puddle slot : ℕ) : ℕ :=
  shape.firstElementAddress puddle + slot * shape.elementSize

/-- `ELEMENT_IS_HOLE`. -/
def elementIsHole (element : ℕ) : Bool :=
  shape.usesHoles && element % (shape.elementSize * holeFrequency) == 0

/-- `pool_getElementPuddleSlot`; `none` is the result `-1`. -/
def getElementPuddleSlot (puddle element : ℕ) : Option ℕ :=
  let first := shape.firstElementAddress puddle
  if first ≤ element ∧ (element - first) % shape.elementSize = 0 ∧
      (element - first) / shape.elementSize < shape.elementsPerPuddle then
    some ((element - first) / shape.elementSize)
  else none

/-- The chain that `poolPuddle_init` builds: the first slot that is no hole, and the
slots among the next `elementsPerPuddle - 1` that are none. -/
def initialChain (puddle : ℕ) : List ℕ :=
  let freeLocation := if shape.usesHoles then 1 else 0
  freeLocation :: ((List.range (shape.elementsPerPuddle - 1)).map (freeLocation + 1 + ·)).filter
    fun slot => !shape.elementIsHole (shape.elementAddress puddle slot)

/-- `poolPuddle_init`. -/
def puddleInit (puddle : ℕ) (prevAvailablePuddle : Option ℕ) : J9PoolPuddle :=
  ⟨0, fun _ => true, shape.initialChain puddle, prevAvailablePuddle⟩

end PuddleShape

/-- `J9Pool` together with its `J9PoolPuddleList`. -/
structure J9Pool extends PuddleShape where
  neverFreePuddles : Bool
  puddles : List ℕ
  available : List ℕ
  puddleAt : ℕ → J9PoolPuddle
  numElements : ℕ

namespace J9Pool

variable (pool : J9Pool)

/-- Write a puddle. -/
def setPuddle (puddle : ℕ) (contents : J9PoolPuddle) : J9Pool :=
  { pool with puddleAt := Function.update pool.puddleAt puddle contents }

/-- Mark a slot used, in its puddle and in the number of elements. -/
def takeSlot (puddle slot : ℕ) (nextFreeElement : List ℕ) : J9Pool :=
  { pool.setPuddle puddle ((pool.puddleAt puddle).takeSlot slot nextFreeElement) with
    numElements := pool.numElements + 1 }

/-- Mark a slot free, in its puddle and in the number of elements. -/
def freeSlot (puddle slot : ℕ) : J9Pool :=
  { pool.setPuddle puddle ((pool.puddleAt puddle).freeSlot slot) with
    numElements := pool.numElements - 1 }

/-- Write `prevAvailablePuddle` of a puddle. -/
def setPrev (puddle : ℕ) (prev : Option ℕ) : J9Pool :=
  pool.setPuddle puddle { pool.puddleAt puddle with prevAvailablePuddle := prev }

/-- Write `prevAvailablePuddle` of the head of a list, if there is one. -/
def setPrevOfHead (list : List ℕ) (prev : Option ℕ) : J9Pool :=
  match list with
  | [] => pool
  | next :: _ => pool.setPrev next prev

/-- Write `nextAvailablePuddle` of `prev`, or of the pool if there is none: the chain goes
on with `next` behind `prev`, if it comes to `prev`. -/
def setNextAvailable (prev : Option ℕ) (next : List ℕ) : J9Pool :=
  match prev with
  | none => { pool with available := next }
  | some q =>
    if q ∈ pool.available then
      { pool with available := pool.available.takeWhile (· ≠ q) ++ q :: next }
    else pool

/-- The chain from `nextAvailablePuddle` of a puddle, which is `NULL` for a puddle that is
not on the chain. -/
def nextAvailable (puddle : ℕ) : List ℕ :=
  (pool.available.dropWhile (· ≠ puddle)).tail

/-- The first part of `pool_newElement`: without an available puddle, a new one becomes
the first of both lists. -/
def withAvailablePuddle (memory : ℕ) : J9Pool :=
  if pool.available = [] then
    { pool.setPuddle memory (pool.puddleInit memory none) with
      puddles := memory :: pool.puddles
      available := [memory] }
  else pool

/-- The rest of `pool_newElement`: the first free slot of the first available puddle. -/
def takeElement : Option (J9Pool × ℕ) :=
  match pool.available with
  | [] => none
  | puddle :: next =>
    match (pool.puddleAt puddle).freeChain with
    | [] => none
    | slot :: nextFreeElement =>
      let pool := pool.takeSlot puddle slot nextFreeElement
      let element := pool.elementAddress puddle slot
      -- a full puddle leaves the list of available puddles
      if nextFreeElement = [] then
        let prev := (pool.puddleAt puddle).prevAvailablePuddle
        some (((pool.setNextAvailable prev next).setPrevOfHead next prev).setPrev puddle none,
          element)
      else some (pool, element)

/-- `pool_newElement`; a new puddle would be at the address `memory`. -/
def newElement (memory : ℕ) : Option (J9Pool × ℕ) :=
  (pool.withAvailablePuddle memory).takeElement

/-- `poolPuddle_delete`. The last puddle of a pool is not deleted. -/
def puddleDelete (puddle : ℕ) : J9Pool :=
  if pool.puddles = [puddle] then pool
  else
    let next := pool.nextAvailable puddle
    let prev := (pool.puddleAt puddle).prevAvailablePuddle
    let pool := { pool with puddles := pool.puddles.erase puddle }
    let unlinked :=
      if pool.available.head? = some puddle then { pool with available := next }
      else if prev.isSome then pool.setNextAvailable prev next
      else pool
    unlinked.setPrevOfHead next prev

/-- The last part of `pool_removeElement`: a puddle that was full is put on top of the list
of available puddles. -/
def pushAvailable (puddle : ℕ) : J9Pool :=
  let next := pool.available
  ({ pool.setPrev puddle none with available := puddle :: next }).setPrevOfHead next (some puddle)

/-- `pool_removeElement`. The puddle comes from the `puddleSRP` of the element, which
leads to the puddle that has the element. -/
def removeElement (anElement : ℕ) : Option J9Pool :=
  match pool.puddles.find? fun puddle => (pool.getElementPuddleSlot puddle anElement).isSome with
  | none => none
  | some puddle =>
    match pool.getElementPuddleSlot puddle anElement with
    | none => some pool
    | some slot =>
      let contents := pool.puddleAt puddle
      if contents.slotFree slot then some pool
      else
        let pool := pool.freeSlot puddle slot
        if (pool.puddleAt puddle).usedElements = 0 ∧ pool.neverFreePuddles = false then
          some (pool.puddleDelete puddle)
        else if contents.freeChain = [] then some (pool.pushAvailable puddle)
        else some pool

/-- `pool_capacity`. -/
def capacity : ℕ := pool.puddles.length * pool.elementsPerPuddle

/-- The body of the loop in `pool_ensureCapacity`: a new puddle behind the last one, on
top of the available ones. The link back to it is not set. -/
def appendPuddle (memory : ℕ) : J9Pool :=
  { pool.setPuddle memory (pool.puddleInit memory none) with
    puddles := pool.puddles ++ [memory]
    available := memory :: pool.available }

/-- The loop of `pool_ensureCapacity`, over the addresses of the new puddles. -/
def appendPuddles (pool : J9Pool) (newSize : ℕ) : List ℕ → Option J9Pool
  | [] => if newSize = 0 then some pool else none
  | memory :: rest =>
    if newSize = 0 then some pool
    else
      let newSize := if newSize < pool.elementsPerPuddle then pool.elementsPerPuddle else newSize
      appendPuddles (pool.appendPuddle memory) (newSize - pool.elementsPerPuddle) rest

/-- `pool_ensureCapacity`. -/
def ensureCapacity (newCapacity : ℕ) (memory : List ℕ) : Option J9Pool :=
  appendPuddles { pool with neverFreePuddles := true } (newCapacity - pool.capacity) memory

/-- The loop of `pool_clear`; `prev` is the puddle before the list. -/
def clearPuddles (pool : J9Pool) (prev : Option ℕ) : List ℕ → J9Pool
  | [] => pool
  | walk :: rest =>
    clearPuddles (pool.setPuddle walk (pool.puddleInit walk prev)) (some walk) rest

/-- `pool_clear`. -/
def clear : J9Pool :=
  { pool.clearPuddles none pool.puddles with
    available := pool.puddles
    numElements := 0 }

end J9Pool

/-- The arguments of `pool_new`, with the two flags of `poolFlags` it looks at. -/
structure PoolArgs where
  structSize : ℕ
  numberElements : ℕ
  elementAlignment : ℕ
  roundToPageSize : Bool
  neverFreePuddles : Bool

namespace PoolArgs

variable (args : PoolArgs)

/-- `elementAlignment` with its default. -/
def alignment : ℕ := if args.elementAlignment = 0 then mallocAlignment else args.elementAlignment

/-- `minNumberElements`. -/
def minNumberElements : ℕ := if args.numberElements = 0 then 1 else args.numberElements

/-- `POOL_ROUND_TO_PAGE_SIZE` with its default. -/
def pageRounded : Bool := args.numberElements = 0 || args.roundToPageSize

/-- The first value of `roundedStructSize`. -/
def structSizeRounded : ℕ := u32 (roundTo args.alignment args.structSize)

/-- Whether the pool uses holes. -/
def usesHoles : Bool :=
  (args.structSizeRounded = 4 ∨ args.structSizeRounded = 8 ∨ args.structSizeRounded = 16) ∧
    sub32 args.structSizeRounded args.structSize < sizeofSRP ∧
    args.alignment % mallocAlignment = 0

/-- The final value of `roundedStructSize`, with room for an SRP where there are no holes. -/
def roundedStructSize : ℕ :=
  if args.usesHoles then args.structSizeRounded
  else if sub32 args.structSizeRounded args.structSize < sizeofSRP then
    u32 (roundTo args.alignment (args.structSize + sizeofSRP))
  else args.structSizeRounded

/-- `firstElementAlignment`. -/
def firstElementAlignment : ℕ :=
  if args.usesHoles then u32 (args.roundedStructSize * holeFrequency) else args.alignment

/-- `puddleHeaderAllocSize` for a bitmap of the given size. -/
def puddleHeaderAllocSize (puddleBitsSize : ℕ) : ℕ :=
  u32 (roundTo args.alignment (sizeofPuddle + puddleBitsSize) +
    sub32 args.firstElementAlignment mallocAlignment)

/-- `tempAllocSize` rounded to a page where the pool asks for that. -/
def allocSize (tempAllocSize : ℕ) : ℕ :=
  if args.pageRounded then roundTo osPageSize tempAllocSize else tempAllocSize

/-- The body of the loop: `puddleAllocSize` and `finalNumberOfElements`. -/
def puddleLayout (puddleBitsSize : ℕ) : ℕ × ℕ :=
  if args.usesHoles then
    let sectorSize := u32 (args.roundedStructSize * holeFrequency)
    let numberOfSectors :=
      u32 (args.minNumberElements + holeFrequency - 2) / (holeFrequency - 1)
    let tempAllocSize :=
      u32 (sectorSize * numberOfSectors + args.puddleHeaderAllocSize puddleBitsSize)
    let puddleAllocSize := args.allocSize tempAllocSize
    let numberOfSectors := u32 (numberOfSectors +
      (puddleAllocSize - tempAllocSize) / sectorSize)
    (puddleAllocSize, u32 (numberOfSectors * holeFrequency))
  else
    let tempAllocSize := u32 (args.roundedStructSize * args.minNumberElements +
      args.puddleHeaderAllocSize puddleBitsSize)
    let puddleAllocSize := args.allocSize tempAllocSize
    (puddleAllocSize, u32 (args.minNumberElements +
      (puddleAllocSize - tempAllocSize) / args.roundedStructSize))

/-- `newPuddleBitsSize` for a number of elements. -/
def puddleBitsSize (numberElements : ℕ) : ℕ := u32 (numberElements + 31) / 8

/-- The loop, which ends when the size of the bitmap is the one it began with. -/
def layoutLoop (args : PoolArgs) : ℕ → ℕ → Option (ℕ × ℕ)
  | 0, _ => none
  | fuel + 1, bitsSize =>
    let layout := args.puddleLayout bitsSize
    if puddleBitsSize layout.2 = bitsSize then some layout
    else layoutLoop args fuel (puddleBitsSize layout.2)

end PoolArgs

/-- The pool that `pool_new` sets up, with its first puddle at the address `memory`. -/
def PoolArgs.firstPool (args : PoolArgs) (puddleAllocSize finalNumberOfElements memory : ℕ) :
    J9Pool :=
  let pool : J9Pool := {
    elementSize := args.roundedStructSize
    elementsPerPuddle := finalNumberOfElements
    puddleAllocSize := puddleAllocSize
    alignment := args.alignment % 2 ^ 16
    usesHoles := args.usesHoles
    neverFreePuddles := args.neverFreePuddles
    puddles := [memory]
    available := [memory]
    puddleAt := fun _ => ⟨0, fun _ => false, [], none⟩
    numElements := 0 }
  pool.setPuddle memory (pool.puddleInit memory none)

/-- `pool_new`; the loop may take `fuel` rounds. -/
def poolNew (args : PoolArgs) (fuel memory : ℕ) : Option J9Pool :=
  if 2 ^ 32 ≤ args.structSize ∨ 2 ^ 32 ≤ args.numberElements ∨
      2 ^ 32 ≤ args.elementAlignment then none
  else
    match args.layoutLoop fuel (PoolArgs.puddleBitsSize args.minNumberElements) with
    | none => none
    | some (puddleAllocSize, finalNumberOfElements) =>
      if 0x7FFFFFFF < puddleAllocSize then none
      else some (args.firstPool puddleAllocSize finalNumberOfElements memory)

end OMR.Util.Pool
