import OMR.GC.HeapMap

/-!
# `MM_HeapMapIterator`

The iterator over the bits of a heap map, for the maps of the non-realtime contexts (one bit for
8 bytes). It keeps the current word in a copy that it shifts, so its heap pointer, map pointer,
bit index and copy have to stay in step: `InStep` says that all of them are at one bit.
-/

namespace OMR.GC

/-- `sizeof(uintptr_t)`. -/
def sizeofSlot : ℕ := 8

/-- `J9MODRON_HEAP_SLOTS_PER_HEAPMAP_BIT`. -/
def heapSlotsPerHeapMapBit : ℕ := 1

/-- `J9MODRON_HEAP_SLOTS_PER_HEAPMAP_SLOT`. -/
def heapSlotsPerHeapMapSlot : ℕ := heapSlotsPerHeapMapBit * bitsInSlot

/-- `J9MODRON_HMI_HEAPMAP_ALIGNMENT`. -/
def heapMapAlignment : ℕ := heapSlotsPerHeapMapSlot * sizeofSlot

/-- `MM_Math::roundToFloor`. -/
def roundToFloor (granularity number : ℕ) : ℕ := number - number % granularity

/-- `MM_HeapMapIterator`; `heapMapSlotCurrent` is the index of the word. -/
structure HeapMapIterator where
  heapSlotCurrent : ℕ
  heapChunkTop : ℕ
  heapMapSlotCurrent : ℕ
  bitIndexHead : ℕ
  heapMapSlotValue : BitVec 64
  useLargeObjectOptimization : Bool

namespace HeapMapIterator

variable (map : HeapMap) (getConsumedSizeInBytesWithHeader : ℕ → ℕ)

/-- The iterator with its copy of the current word, which is read only while there is a heap slot
to scan, and the words of the map that were read. -/
def cacheSlot (it : HeapMapIterator) : HeapMapIterator × List ℕ :=
  if it.heapSlotCurrent < it.heapChunkTop then
    ({ it with heapMapSlotValue := map.slot it.heapMapSlotCurrent >>> it.bitIndexHead },
      [it.heapMapSlotCurrent])
  else (it, [])

/-- `reset`. -/
def reset (it : HeapMapIterator) (heapChunkBase heapChunkTop : ℕ) : HeapMapIterator × List ℕ :=
  let heapOffsetInBytes := heapChunkBase - map.heapBase
  cacheSlot map
    { it with
      heapChunkTop := heapChunkTop
      heapSlotCurrent := heapChunkBase
      bitIndexHead := map.getBitIndex heapChunkBase
      heapMapSlotCurrent :=
        roundToFloor heapMapAlignment heapOffsetInBytes / heapSlotsPerHeapMapSlot / sizeofSlot }

/-- `sizeInHeapMapBits` of an object. -/
def sizeInHeapMapBits (it : HeapMapIterator) (nextObject : ℕ) : ℕ :=
  if it.useLargeObjectOptimization then
    getConsumedSizeInBytesWithHeader nextObject / sizeofSlot / heapSlotsPerHeapMapBit
  else 1

/-- The first part of the loop for a word with a bit: on to that bit. -/
def skipZeroes (it : HeapMapIterator) : HeapMapIterator :=
  let leadingZeroes := it.heapMapSlotValue.ctz.toNat
  { it with
    heapSlotCurrent := it.heapSlotCurrent + sizeofSlot * (heapSlotsPerHeapMapBit * leadingZeroes)
    heapMapSlotValue := it.heapMapSlotValue >>> leadingZeroes
    bitIndexHead := it.bitIndexHead + leadingZeroes }

/-- The second part: over the body of the object. -/
def jumpOver (it : HeapMapIterator) (sizeInHeapMapBits : ℕ) : HeapMapIterator × List ℕ :=
  let heapMapAdvance := (it.bitIndexHead + sizeInHeapMapBits) / bitsInSlot
  let next :=
    { it with
      heapSlotCurrent :=
        it.heapSlotCurrent + sizeofSlot * (heapSlotsPerHeapMapBit * sizeInHeapMapBits)
      heapMapSlotCurrent := it.heapMapSlotCurrent + heapMapAdvance
      bitIndexHead := (it.bitIndexHead + sizeInHeapMapBits) % bitsInSlot }
  if heapMapAdvance ≠ 0 then cacheSlot map next
  else
    ({ next with heapMapSlotValue := it.heapMapSlotValue >>> (sizeInHeapMapBits % bitsInSlot) }, [])

/-- A word without a bit: on to the next word, which is cached as it is (the bit index is 0). -/
def nextSlot (it : HeapMapIterator) : HeapMapIterator × List ℕ :=
  cacheSlot map
    { it with
      heapSlotCurrent := it.heapSlotCurrent +
        sizeofSlot * (heapSlotsPerHeapMapBit * (bitsInSlot - it.bitIndexHead))
      heapMapSlotCurrent := it.heapMapSlotCurrent + 1
      bitIndexHead := 0 }

/-- The loop of `nextObject`, with the words that it reads. -/
def nextObjectLoop : (fuel : ℕ) → HeapMapIterator →
    Option (Option ℕ × HeapMapIterator × List ℕ)
  | 0, _ => none
  | fuel + 1, it =>
    if it.heapSlotCurrent < it.heapChunkTop then
      if it.heapMapSlotValue ≠ 0#64 then
        let found := skipZeroes it
        let nextObject := found.heapSlotCurrent
        let (next, reads) := jumpOver map found
          (sizeInHeapMapBits getConsumedSizeInBytesWithHeader it nextObject)
        some (if nextObject < it.heapChunkTop then some nextObject else none, next, reads)
      else
        let (next, reads) := nextSlot map it
        (nextObjectLoop fuel next).map fun r => (r.1, r.2.1, reads ++ r.2.2)
    else some (none, it, [])

/-- `nextObject`. -/
def nextObject (it : HeapMapIterator) : Option (Option ℕ × HeapMapIterator × List ℕ) :=
  nextObjectLoop map getConsumedSizeInBytesWithHeader (it.heapChunkTop - it.heapSlotCurrent + 1) it

/-- The results of the first calls of `nextObject`, and the words that they read. -/
def nextObjects : (calls : ℕ) → HeapMapIterator → Option (List (Option ℕ) × List ℕ)
  | 0, _ => some ([], [])
  | calls + 1, it => do
    let (object, next, reads) ← nextObject map getConsumedSizeInBytesWithHeader it
    let (objects, reads') ← nextObjects calls next
    pure (object :: objects, reads ++ reads')

/-- The slots of the heap from `base` on and below `top`. -/
def heapSlots (base top : ℕ) : List ℕ :=
  (List.range ((top - base + 7) / sizeofSlot)).map fun k => base + sizeofSlot * k

/-- What the large-object optimisation rests on: a marked object is at least a slot long, and no
bit is set strictly inside of it. -/
structure ObjectExtents (base top : ℕ) : Prop where
  slot_le : ∀ a, base ≤ a → a < top → map.isBitSet a = true →
    sizeofSlot ≤ getConsumedSizeInBytesWithHeader a
  inside : ∀ a, base ≤ a → a < top → map.isBitSet a = true → ∀ k, 0 < k →
    sizeofSlot * k < getConsumedSizeInBytesWithHeader a → map.isBitSet (a + sizeofSlot * k) = false

end HeapMapIterator

end OMR.GC
