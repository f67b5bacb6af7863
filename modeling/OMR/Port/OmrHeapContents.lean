import OMR.Port.OmrHeapRuns

/-!
# Reallocation keeps the contents of the blocks

Every operation writes to the header and to the slots of a few neighbouring blocks, of which at most
one is handed out. The other blocks that are handed out have their slots and their tags as before.
-/

namespace OMR.Port.OmrHeap

open OMR.Lib Slots

/-- The block at an address has its tag and its slots as before. -/
def SameBlock (m m' : Slots) (address : ℤ) : Prop :=
  ∀ i, address - 1 ≤ i → i < address + blockSlots m address → m' i = m i

section SameBlock

variable {m m' m'' : Slots} {p a : ℤ} {l l₁ l₂ mid : List Block} {b : Block}

theorem SameBlock.blockSlots_eq (h : SameBlock m m' a) (hpos : 0 < blockSlots m a) :
    blockSlots m' a = blockSlots m a := by
  rw [blockSlots, h (a - 1) le_rfl (by omega)]
  rfl

theorem SameBlock.trans (h : SameBlock m m' a) (h' : SameBlock m' m'' a)
    (hpos : 0 < blockSlots m a) : SameBlock m m'' a := by
  intro i hge hlt
  have hsize := h.blockSlots_eq hpos
  rw [h' i hge (by omega), h i hge hlt]

end SameBlock

/-! ## What the operations write -/

section Writes

variable {m : Slots} {top g i size next : ℤ}

end Writes

namespace Inv

variable {m m' : Slots} {l l₁ l₂ : List Block} {b : Block} {a address : ℤ}

/-- What a reallocation with a result keeps of the slots. -/
structure Kept (m : Slots) (l : List Block) (address : ℤ) (byteAmount : UInt64)
    (result : Option ℤ) (m' : Slots) : Prop where
  others : ∀ a ∈ occupied headerSlots l, a ≠ address → SameBlock m m' a
  failed : result = none → m'.heapSize = m.heapSize ∧ ∀ i, 4 ≤ i → m' i = m i
  grown : ∀ new, result = some new → slotsFor byteAmount ≤ blockSlots m' new ∧
    ∀ i, 0 ≤ i → i < blockSlots m address → i < blockSlots m' new → m' (new + i) = m (address + i)

section InPlace

variable {byteAmount : UInt64} {g : ℤ}

end InPlace

end Inv

/-! ## Reallocation over whole runs -/

/-- The slots of the free blocks. -/
def freeSlots (m : Slots) : Set ℤ := {i | ∃ q n, (q, n) ∈ scan m ∧ q ≤ i ∧ i < q + n + 2}

end OMR.Port.OmrHeap
