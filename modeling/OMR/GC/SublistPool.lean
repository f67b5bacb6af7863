import Mathlib.Algebra.BigOperators.Group.Finset.Basic
import Mathlib.Data.BitVec
import OMR.Lib.LinkedList

/-!
# Sublist pools

`MM_SublistPool`: the remembered set, a list of puddles from which threads reserve
fragments. Sizes are in bytes, pointers into a puddle are counted in slots from its base.
A function that fails an assertion gives nothing.
-/

namespace OMR.GC

/-- `sizeof(uintptr_t)`. -/
def slotSize : ℕ := 8

/-- `MM_SublistPuddle`, without its link. -/
structure SublistPuddle (E : Type*) where
  /-- `_size`. -/
  size : ℕ
  /-- `_listCurrent`, from `_listBase`. -/
  listCurrent : ℕ
  /-- The slots behind the header; no entry is `NULL`. -/
  store : List (Option E)

/-- `J9VMGC_SublistFragment`; without a puddle its pointers are `NULL`. -/
structure SublistFragment (P : Type*) where
  puddle : Option P
  fragmentCurrent : ℕ
  fragmentTop : ℕ
  fragmentSize : ℕ
  count : ℕ

/-- `GC_SublistSlotIterator`, without its puddle. -/
structure SublistSlotIterator where
  scanPtr : ℕ
  removedCount : ℕ
  returnedFilledSlot : Bool

namespace SublistPuddle

variable {E : Type*}

/-- `initialize`. -/
def initialized (size : ℕ) : SublistPuddle E := ⟨size, 0, List.replicate (size / slotSize) none⟩

def totalSize (puddle : SublistPuddle E) : ℕ := puddle.size

def consumedSize (puddle : SublistPuddle E) : ℕ := slotSize * puddle.listCurrent

def freeSize (puddle : SublistPuddle E) : ℕ := puddle.size - puddle.consumedSize

def isFull (puddle : SublistPuddle E) : Bool := puddle.consumedSize = puddle.size

def isEmpty (puddle : SublistPuddle E) : Bool := puddle.listCurrent = 0

/-- `allocate`, which moves `_listCurrent` by the size of a fragment, or what is left. -/
def allocate (puddle : SublistPuddle E) (fragmentSize : ℕ) : Option (SublistPuddle E) :=
  if puddle.freeSize = 0 then none
  else some { puddle with
    listCurrent := puddle.listCurrent + min puddle.freeSize fragmentSize / slotSize }

def allocateElementNoContention (puddle : SublistPuddle E) : Option (ℕ × SublistPuddle E) :=
  if puddle.consumedSize < puddle.size then
    some (puddle.listCurrent, { puddle with listCurrent := puddle.listCurrent + 1 })
  else none

/-- A slot is written. -/
def setSlot (puddle : SublistPuddle E) (slot : ℕ) (value : Option E) : SublistPuddle E :=
  { puddle with store := puddle.store.set slot value }

/-- The number of slots `merge` copies. -/
def copyCount (puddle sourcePuddle : SublistPuddle E) : ℕ :=
  min puddle.freeSize sourcePuddle.consumedSize / slotSize

/-- What `merge` makes of the receiver. -/
def mergeFrom (puddle sourcePuddle : SublistPuddle E) : SublistPuddle E :=
  let n := puddle.copyCount sourcePuddle
  let copied := (sourcePuddle.store.drop (sourcePuddle.listCurrent - n)).take n
  { puddle with
    listCurrent := puddle.listCurrent + n
    store := puddle.store.take puddle.listCurrent ++ copied ++
      puddle.store.drop (puddle.listCurrent + n) }

/-- What `merge` makes of the source when it copies `n` slots. -/
def dropLast (sourcePuddle : SublistPuddle E) (n : ℕ) : SublistPuddle E :=
  { sourcePuddle with
    listCurrent := sourcePuddle.listCurrent - n
    store := sourcePuddle.store.take (sourcePuddle.listCurrent - n) ++ List.replicate n none ++
      sourcePuddle.store.drop sourcePuddle.listCurrent }

/-- `removeSlot` of an iterator that has scanned up to `scanPtr`. -/
def removeSlot (puddle : SublistPuddle E) (scanPtr : ℕ) : SublistPuddle E :=
  let last := puddle.listCurrent - 1
  { puddle with
    listCurrent := last
    store := (puddle.store.set (scanPtr - 1) (puddle.store.getD last none)).set last none }

end SublistPuddle

namespace SublistSlotIterator

variable {E : Type*}

/-- The constructor. -/
def start : SublistSlotIterator := ⟨0, 0, false⟩

/-- `nextSlot`: the slot, and the iterator after it. At the end it gives no slot. -/
def nextSlot (iterator : SublistSlotIterator) (puddle : SublistPuddle E) :
    Option ℕ × SublistSlotIterator :=
  let removedCount := if iterator.returnedFilledSlot ∧
    (puddle.store.getD (iterator.scanPtr - 1) none).isNone then iterator.removedCount + 1
    else iterator.removedCount
  if iterator.scanPtr < puddle.listCurrent then
    (some iterator.scanPtr, ⟨iterator.scanPtr + 1, removedCount,
      (puddle.store.getD iterator.scanPtr none).isSome⟩)
  else (none, { iterator with removedCount := removedCount })

/-- What `removeSlot` makes of the iterator. -/
def removeSlot (iterator : SublistSlotIterator) : SublistSlotIterator :=
  ⟨iterator.scanPtr - 1,
    if iterator.returnedFilledSlot then iterator.removedCount + 1 else iterator.removedCount, false⟩

end SublistSlotIterator

/-- `MM_SublistPool`, with the puddles of the forge. -/
structure SublistPool (P E : Type*) where
  list : Option P
  allocPuddle : Option P
  growSize : ℕ
  currentSize : ℕ
  maxSize : ℕ
  count : BitVec 64
  previousList : Option P
  /-- `_next` of each puddle. -/
  next : P → Option P
  puddle : P → SublistPuddle E
  /-- The puddles that the forge has given out and that are not killed. -/
  allocated : Finset P

namespace SublistPool

variable {P E : Type*} [DecidableEq P]

/-- `initialize`, with `setGrowSize` and `setMaxSize`. -/
def initialized (growSize maxSize : ℕ) (next : P → Option P) (puddle : P → SublistPuddle E) :
    SublistPool P E :=
  ⟨none, none, growSize, 0, maxSize, 0, none, next, puddle, ∅⟩

def setNext (pool : SublistPool P E) (puddle : P) (next : Option P) : SublistPool P E :=
  { pool with next := Function.update pool.next puddle next }

def setPuddle (pool : SublistPool P E) (puddle : P) (contents : SublistPuddle E) :
    SublistPool P E :=
  { pool with puddle := Function.update pool.puddle puddle contents }

/-- `MM_SublistPuddle::newInstance` at the address that the forge gives. -/
def newInstance (pool : SublistPool P E) (size : ℕ) (puddle : P) : SublistPool P E :=
  { pool with
    next := Function.update pool.next puddle none
    puddle := Function.update pool.puddle puddle (SublistPuddle.initialized size)
    allocated := insert puddle pool.allocated }

/-- `MM_SublistPuddle::kill`. -/
def kill (pool : SublistPool P E) (puddle : P) : SublistPool P E :=
  { pool with allocated := pool.allocated.erase puddle }

/-- The size that `createNewPuddle` and `allocate` determine for a new puddle. -/
def puddleSize (pool : SublistPool P E) : Option ℕ :=
  let size := if pool.maxSize ≠ 0 then min (pool.maxSize - pool.currentSize) pool.growSize
    else pool.growSize
  if size = 0 then none else some size

/-- `createNewPuddle`, and the size that its caller adds. -/
def createNewPuddle (pool : SublistPool P E) (memory : Option P) :
    Option (P × SublistPool P E) :=
  match pool.puddleSize, memory with
  | some size, some puddle =>
    let pool := pool.newInstance size puddle
    some (puddle, { pool with currentSize := pool.currentSize + (pool.puddle puddle).totalSize })
  | _, _ => none

/-- `MM_SublistPuddle::allocate` for a fragment. -/
def allocateFrom (pool : SublistPool P E) (puddle : P) (fragment : SublistFragment P) :
    Option (SublistPool P E × SublistFragment P) :=
  let old := pool.puddle puddle
  (old.allocate fragment.fragmentSize).map fun new => (pool.setPuddle puddle new,
    { fragment with
      puddle := some puddle
      fragmentCurrent := old.listCurrent
      fragmentTop := new.listCurrent })

/-- The part of `allocate` that exposes the puddle from which the fragment has come. -/
def exposePuddle (pool : SublistPool P E) (emptyPuddle : P) : Option (SublistPool P E) :=
  match pool.list, pool.allocPuddle with
  | none, none => if pool.next emptyPuddle = none then
      some { pool with list := some emptyPuddle, allocPuddle := some emptyPuddle } else none
  | some _, some tail =>
    if pool.next tail = none then
      let pool := pool.setNext tail (some emptyPuddle)
      if pool.next emptyPuddle = none then some { pool with allocPuddle := some emptyPuddle }
      else none
    else none
  | _, _ => none

/-- The part of `allocate` that takes the fragment from an empty puddle. -/
def allocateFromEmpty (pool : SublistPool P E) (emptyPuddle : P) (fragment : SublistFragment P) :
    Option (Bool × SublistPool P E × SublistFragment P) :=
  if (pool.puddle emptyPuddle).isEmpty then
    (pool.allocateFrom emptyPuddle fragment).bind fun (pool, fragment) =>
      (pool.exposePuddle emptyPuddle).map fun pool => (true, pool, fragment)
  else none

/-- `allocate`. The second test of the allocation puddle, under the lock, sees the same. -/
def allocate (pool : SublistPool P E) (fragment : SublistFragment P) (memory : Option P) :
    Option (Bool × SublistPool P E × SublistFragment P) :=
  match pool.allocPuddle.bind (pool.allocateFrom · fragment) with
  | some (pool, fragment) => some (true, pool, fragment)
  | none =>
    match pool.allocPuddle.bind pool.next with
    | some emptyPuddle => pool.allocateFromEmpty emptyPuddle fragment
    | none =>
      match pool.createNewPuddle memory with
      | none => some (false, pool, fragment)
      | some (emptyPuddle, pool) =>
        if pool.next emptyPuddle = none then pool.allocateFromEmpty emptyPuddle fragment else none

/-- The last part of `allocateElementNoContention`: the puddle becomes the allocation puddle. -/
def allocateElementFrom (pool : SublistPool P E) (puddle : P) :
    Option (P × ℕ) × SublistPool P E :=
  let pool := { pool with allocPuddle := some puddle }
  match (pool.puddle puddle).allocateElementNoContention with
  | none => (none, pool)
  | some (slot, contents) => (some (puddle, slot), pool.setPuddle puddle contents)

/-- The part of `allocateElementNoContention` that links a new puddle into the list. -/
def linkPuddle (pool : SublistPool P E) (puddle : P) : SublistPool P E :=
  let pool := match pool.allocPuddle with
    | some tail => pool.setNext tail (some puddle)
    | none => pool
  match pool.list with
  | none => { pool with list := some puddle }
  | some _ => pool

def allocateElementNoContention (pool : SublistPool P E) (memory : Option P) :
    Option (P × ℕ) × SublistPool P E :=
  match pool.allocPuddle.bind fun puddle =>
      (pool.puddle puddle).allocateElementNoContention.map fun found => (puddle, found) with
  | some (puddle, slot, contents) => (some (puddle, slot), pool.setPuddle puddle contents)
  | none =>
    match pool.allocPuddle.bind pool.next with
    | some emptyPuddle => pool.allocateElementFrom emptyPuddle
    | none =>
      match pool.createNewPuddle memory with
      | none => (none, pool)
      | some (puddle, pool) => (pool.linkPuddle puddle).allocateElementFrom puddle

def startProcessingSublist (pool : SublistPool P E) : Option (SublistPool P E) :=
  if pool.previousList = none then
    let pool := { pool with previousList := pool.list }
    match pool.allocPuddle with
    | none => some { pool with list := none, allocPuddle := none }
    | some tail =>
      let list := pool.next tail
      if list.all fun puddle => (pool.puddle puddle).isEmpty then
        some { pool.setNext tail none with list := list, allocPuddle := list }
      else none
  else none

/-- The part of `popPreviousPuddle` that takes back a puddle. -/
def returnPuddle (pool : SublistPool P E) (returnedPuddle : P) : Option (SublistPool P E) :=
  if pool.next returnedPuddle = none then
    let pool := { pool.setNext returnedPuddle pool.list with list := some returnedPuddle }
    match pool.allocPuddle with
    | some _ => some pool
    | none => if pool.next returnedPuddle = none then
        some { pool with allocPuddle := some returnedPuddle } else none
  else none

/-- The part of `popPreviousPuddle` that takes a puddle off the previous list. -/
def popPrevious (pool : SublistPool P E) : Option P × SublistPool P E :=
  match pool.previousList with
  | none => (none, pool)
  | some result =>
    (some result, { pool.setNext result none with previousList := pool.next result })

def popPreviousPuddle (pool : SublistPool P E) :
    Option P → Option (Option P × SublistPool P E)
  | none => some pool.popPrevious
  | some returnedPuddle => (pool.returnPuddle returnedPuddle).map popPrevious

/-- `nextSlot`; the end of the puddle takes the removed slots off the count. -/
def nextSlot (pool : SublistPool P E) (puddle : P) (iterator : SublistSlotIterator) :
    SublistPool P E × SublistSlotIterator :=
  match iterator.nextSlot (pool.puddle puddle) with
  | (some _, iterator) => (pool, iterator)
  | (none, iterator) =>
    ({ pool with count := pool.count - BitVec.ofNat 64 iterator.removedCount }, iterator)

/-- `MM_SublistPuddle::merge` of two puddles of the pool. -/
def merge (pool : SublistPool P E) (destination source : P) : SublistPool P E :=
  let destinationPuddle := pool.puddle destination
  let sourcePuddle := pool.puddle source
  (pool.setPuddle destination (destinationPuddle.mergeFrom sourcePuddle)).setPuddle source
    (sourcePuddle.dropLast (destinationPuddle.copyCount sourcePuddle))

/-- The variables of `compact`, with `_list` and `_currentSize` in the pool. -/
structure Compaction (P E : Type*) where
  pool : SublistPool P E
  destinationPuddle : Option P
  lastPuddle : Option P

namespace Compaction

/-- A full puddle goes to the front of the list. -/
def addFull (s : Compaction P E) (puddle : P) : Compaction P E :=
  { s with
    lastPuddle := if s.pool.list = none then some puddle else s.lastPuddle
    pool := { s.pool.setNext puddle s.pool.list with list := some puddle } }

/-- A puddle that has been emptied is taken off the size and killed. -/
def killSource (s : Compaction P E) (source : P) : Compaction P E :=
  { s with
    pool := SublistPool.kill { s.pool with
      currentSize := s.pool.currentSize - (s.pool.puddle source).totalSize } source }

/-- The current puddle and the merge candidate are both partly full. -/
def mergeInto (s : Compaction P E) (destination source : P) : Compaction P E :=
  let s := { s with pool := s.pool.merge destination source }
  if (s.pool.puddle destination).isFull then
    let s := s.addFull destination
    if (s.pool.puddle source).isEmpty then
      { s.killSource source with destinationPuddle := none }
    else { s with destinationPuddle := some source }
  else { s.killSource source with destinationPuddle := some destination }

/-- One round of the loop. -/
def step (s : Compaction P E) (currentPuddle : P) : Compaction P E :=
  if (s.pool.puddle currentPuddle).isEmpty then { s with pool := s.pool.kill currentPuddle }
  else if (s.pool.puddle currentPuddle).isFull then s.addFull currentPuddle
  else
    match s.destinationPuddle with
    | none => { s with destinationPuddle := some currentPuddle }
    | some destinationPuddle =>
      if (s.pool.puddle destinationPuddle).consumedSize ≥
          (s.pool.puddle currentPuddle).consumedSize then
        s.mergeInto destinationPuddle currentPuddle
      else s.mergeInto currentPuddle destinationPuddle

/-- The loop, as long as it makes at most so many rounds. -/
def loop : ℕ → Compaction P E → Option P → Option (Compaction P E)
  | _, s, none => some s
  | 0, _, some _ => none
  | rounds + 1, s, some currentPuddle =>
    loop rounds (s.step currentPuddle) (s.pool.next currentPuddle)

/-- What follows the loop. -/
def finish (s : Compaction P E) : SublistPool P E :=
  match s.destinationPuddle with
  | none => { s.pool with allocPuddle := s.lastPuddle }
  | some destinationPuddle =>
    let pool := match s.lastPuddle with
      | some lastPuddle => s.pool.setNext lastPuddle (some destinationPuddle)
      | none => { s.pool with list := some destinationPuddle }
    { pool.setNext destinationPuddle none with allocPuddle := some destinationPuddle }

end Compaction

/-- `compact`. No list is longer than there are puddles. -/
def compact (pool : SublistPool P E) : Option (SublistPool P E) :=
  (Compaction.loop pool.allocated.card ⟨{ pool with list := none }, none, none⟩ pool.list).map
    Compaction.finish

/-- The loops of `clear`. -/
def killList : ℕ → SublistPool P E → Option P → Option (SublistPool P E)
  | _, pool, none => some pool
  | 0, _, some _ => none
  | rounds + 1, pool, some puddle => killList rounds (pool.kill puddle) (pool.next puddle)

def clear (pool : SublistPool P E) : Option (SublistPool P E) :=
  let rounds := pool.allocated.card
  (killList rounds { pool with currentSize := 0 } pool.list).bind fun pool =>
    (killList rounds pool pool.previousList).map fun pool => { pool with
      list := none
      allocPuddle := none
      previousList := none
      count := 0 }

/-- `MM_SublistFragment::flush`: the pool, and the fragment. -/
def flush (pool : SublistPool P E) (fragment : SublistFragment P) :
    SublistPool P E × SublistFragment P :=
  ({ pool with count := pool.count + BitVec.ofNat 64 fragment.count },
    ⟨none, 0, 0, fragment.fragmentSize, 0⟩)

/-- `allocateMemoryForSublistFragment`. -/
def allocateMemoryForSublistFragment (pool : SublistPool P E) (fragment : SublistFragment P)
    (memory : Option P) : Option (Bool × SublistPool P E × SublistFragment P) :=
  let (pool, fragment) := pool.flush fragment
  pool.allocate fragment memory

/-- The slot that the fragment gives next. -/
def takeSlot (fragment : SublistFragment P) : Option (P × ℕ) × SublistFragment P :=
  (fragment.puddle.map fun puddle => (puddle, fragment.fragmentCurrent),
    { fragment with
      count := fragment.count + 1
      fragmentCurrent := fragment.fragmentCurrent + 1 })

/-- `MM_SublistFragment::allocate`. -/
def allocateEntry (pool : SublistPool P E) (fragment : SublistFragment P) (memory : Option P) :
    Option (Option (P × ℕ) × SublistPool P E × SublistFragment P) :=
  if fragment.fragmentCurrent < fragment.fragmentTop then
    let (slot, fragment) := takeSlot fragment
    some (slot, pool, fragment)
  else
    (pool.allocate fragment memory).map fun (allocated, pool, fragment) =>
      if allocated then
        let (slot, fragment) := takeSlot fragment
        (slot, pool, fragment)
      else (none, pool, fragment)

/-- The entry is stored in the slot. -/
def storeEntry (pool : SublistPool P E) (slot : P × ℕ) (entry : E) : SublistPool P E :=
  pool.setPuddle slot.1 ((pool.puddle slot.1).setSlot slot.2 (some entry))

/-- `MM_SublistFragment::add`. -/
def add (pool : SublistPool P E) (fragment : SublistFragment P) (entry : E) (memory : Option P) :
    Option (Bool × SublistPool P E × SublistFragment P) :=
  (pool.allocateEntry fragment memory).map fun (dest, pool, fragment) =>
    match dest with
    | some slot => (true, pool.storeEntry slot entry, fragment)
    | none => (false, pool, fragment)

end SublistPool

end OMR.GC
