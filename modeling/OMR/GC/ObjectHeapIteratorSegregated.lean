import Mathlib.Tactic

/-!
# `ObjectHeapIteratorSegregated`

The two iterations over the cells of a region. `nextObject` moves on before it returns,
`nextObjectNoAdvance` when it is called again. A region is walkable when its cells hold live
objects of one cell each and holes of whole cells.
-/

namespace OMR.GC

/-- `MM_HeapRegionDescriptor::RegionType`. -/
inductive RegionType where
  | reserved | free | segregatedSmall | segregatedLarge | arrayletLeaf | addressOrdered
  | addressOrderedIdle | addressOrderedMarked | bumpAllocated | bumpAllocatedIdle
  | bumpAllocatedMarked
  deriving DecidableEq

/-- The header slots of objects and holes, and the sizes in the headers of holes. -/
structure ObjectMemory where
  headerSlot : ℕ → BitVec 64
  size : ℕ → ℕ
  concurrentScavenger : Bool

namespace ObjectMemory

variable (m : ObjectMemory)

/-- With the concurrent scavenger the forwarded bit tells a hole from a self-forwarded object. -/
def isDeadObject (objectPtr : ℕ) : Bool :=
  if m.concurrentScavenger then m.headerSlot objectPtr &&& 5 = 1
  else m.headerSlot objectPtr &&& 1 = 1

def isSingleSlotDeadObject (objectPtr : ℕ) : Bool := m.headerSlot objectPtr &&& 3 = 3

def getSizeInBytesDeadObject (objectPtr : ℕ) : ℕ :=
  if m.isSingleSlotDeadObject objectPtr then 8 else m.size objectPtr

end ObjectMemory

structure ObjectHeapIteratorSegregated where
  scanPtr : ℕ
  scanPtrTop : ℕ
  type : RegionType
  cellSize : ℕ
  includeDeadObjects : Bool
  pastFirstObject : Bool
  smallPtrTop : ℕ

namespace ObjectHeapIteratorSegregated

/-- The top of the last whole cell. -/
def calculateActualScanPtrTop (it : ObjectHeapIteratorSegregated) : ObjectHeapIteratorSegregated :=
  if it.type = .segregatedSmall then
    let cellCount := (it.scanPtrTop - it.scanPtr) / it.cellSize
    { it with smallPtrTop := it.scanPtr + cellCount * it.cellSize }
  else it

/-- The constructor. -/
def new (base top : ℕ) (type : RegionType) (cellSize : ℕ)
    (includeDeadObjects skipFirstObject : Bool) : ObjectHeapIteratorSegregated :=
  calculateActualScanPtrTop
    ⟨base, top, type, cellSize, includeDeadObjects, skipFirstObject, 0⟩

variable (m : ObjectMemory)

/-- The loop of `nextObject` over the cells: the iterator, and the object or `NULL`. -/
def nextSmallObject : ℕ → ObjectHeapIteratorSegregated →
    Option (ObjectHeapIteratorSegregated × Option ℕ)
  | 0, _ => none
  | fuel + 1, it =>
    if it.scanPtr < it.smallPtrTop then
      if !m.isDeadObject it.scanPtr then
        some ({ it with scanPtr := it.scanPtr + it.cellSize }, some it.scanPtr)
      else
        let it := { it with scanPtr := it.scanPtr + m.getSizeInBytesDeadObject it.scanPtr }
        -- the scan pointer is behind the hole by now
        if it.includeDeadObjects then some (it, some it.scanPtr)
        else nextSmallObject fuel it
    else some (it, none)

def nextObject (fuel : ℕ) (it : ObjectHeapIteratorSegregated) :
    Option (ObjectHeapIteratorSegregated × Option ℕ) :=
  match it.type with
  | .segregatedSmall => nextSmallObject m fuel it
  | .segregatedLarge =>
    if it.scanPtr < it.scanPtrTop then some ({ it with scanPtr := it.scanPtrTop }, some it.scanPtr)
    else some (it, none)
  | .arrayletLeaf | .free | .reserved => some (it, none)
  | _ => none

/-- The loop of `nextObjectNoAdvance`. -/
def advanceSmallObject : ℕ → ObjectHeapIteratorSegregated →
    Option (ObjectHeapIteratorSegregated × Option ℕ)
  | 0, _ => none
  | fuel + 1, it =>
    if it.scanPtr < it.smallPtrTop then
      let size := if !m.isDeadObject it.scanPtr then it.cellSize
        else m.getSizeInBytesDeadObject it.scanPtr
      let it := { it with scanPtr := it.scanPtr + size }
      if it.scanPtr < it.smallPtrTop ∧ (!m.isDeadObject it.scanPtr || it.includeDeadObjects) then
        some (it, some it.scanPtr)
      else advanceSmallObject fuel it
    else some (it, none)

def nextObjectNoAdvance (fuel : ℕ) (it : ObjectHeapIteratorSegregated) :
    Option (ObjectHeapIteratorSegregated × Option ℕ) :=
  match it.type with
  | .segregatedSmall =>
    if !it.pastFirstObject then
      let it := { it with pastFirstObject := true }
      if it.scanPtr ≥ it.smallPtrTop then some (it, none)
      else if !m.isDeadObject it.scanPtr || it.includeDeadObjects then some (it, some it.scanPtr)
      else advanceSmallObject m fuel it
    else advanceSmallObject m fuel it
  | .segregatedLarge =>
    if !it.pastFirstObject ∧ it.scanPtr < it.scanPtrTop then
      some ({ it with scanPtr := it.scanPtrTop }, some it.scanPtr)
    else some (it, none)
  | .arrayletLeaf | .free | .reserved => some (it, none)
  | _ => none

/-- The objects that repeated calls return, up to the first `NULL`. -/
def objects (next : ObjectHeapIteratorSegregated →
    Option (ObjectHeapIteratorSegregated × Option ℕ)) :
    ℕ → ObjectHeapIteratorSegregated → Option (List ℕ)
  | 0, _ => none
  | calls + 1, it => (next it).bind fun (it, object) =>
    match object with
    | none => some []
    | some object => (objects next calls it).map (object :: ·)

end ObjectHeapIteratorSegregated

/-! ### Walkable regions -/

/-- What begins at a cell: a live object, or a hole of some cells. -/
inductive CellEntry where
  | live
  | hole (cells : ℕ)
  deriving DecidableEq

namespace CellEntry

def cells : CellEntry → ℕ
  | live => 1
  | hole cells => cells

/-- Whether an entry is iterated over. -/
def included (includeDeadObjects : Bool) : CellEntry → Bool
  | live => true
  | hole _ => includeDeadObjects

variable (cellSize : ℕ)

/-- The address behind some entries. -/
def endOf (base : ℕ) (entries : List CellEntry) : ℕ :=
  base + (entries.map cells).sum * cellSize

/-- The addresses of the entries that are iterated over, in order. -/
def addresses (includeDeadObjects : Bool) : ℕ → List CellEntry → List ℕ
  | _, [] => []
  | base, entry :: entries =>
    let rest := addresses includeDeadObjects (base + entry.cells * cellSize) entries
    if entry.included includeDeadObjects then base :: rest else rest

/-- The memory from `base` on is as the entries say. -/
def Walkable (m : ObjectMemory) : ℕ → List CellEntry → Prop
  | _, [] => True
  | base, live :: entries =>
    m.isDeadObject base = false ∧ Walkable m (base + 1 * cellSize) entries
  | base, hole cells :: entries =>
    m.isDeadObject base = true ∧ 0 < cells ∧
      m.getSizeInBytesDeadObject base = cells * cellSize ∧
      Walkable m (base + cells * cellSize) entries

end CellEntry

namespace ObjectHeapIteratorSegregated

open CellEntry

variable {m : ObjectMemory} {cellSize : ℕ}

/-- An iterator over a small region, at an address. -/
structure AtAddress (cellSize : ℕ) (it : ObjectHeapIteratorSegregated) (base : ℕ)
    (entries : List CellEntry) : Prop where
  type : it.type = .segregatedSmall
  cellSize_eq : it.cellSize = cellSize
  scanPtr : it.scanPtr = base
  smallPtrTop : it.smallPtrTop = endOf cellSize base entries

section Entries

variable {base : ℕ} {entry : CellEntry} {entries : List CellEntry}

theorem endOf_cons : endOf cellSize base (entry :: entries) =
    endOf cellSize (base + entry.cells * cellSize) entries := by
  unfold endOf
  rw [List.map_cons, List.sum_cons]
  ring

/-- What the memory says of the first entry. -/
theorem walkable_cons (h : Walkable cellSize m base (entry :: entries)) :
    0 < entry.cells ∧ (m.isDeadObject base = !entry.included false) ∧
      (if !m.isDeadObject base then cellSize else m.getSizeInBytesDeadObject base) =
        entry.cells * cellSize ∧
      Walkable cellSize m (base + entry.cells * cellSize) entries := by
  cases entry with
  | live =>
    obtain ⟨hlive, hrest⟩ := h
    exact ⟨one_pos, hlive, by rw [hlive]; exact (one_mul _).symm, hrest⟩
  | hole cells =>
    obtain ⟨hdead, hpos, hsize, hrest⟩ := h
    exact ⟨hpos, hdead, by rw [hdead]; exact hsize, hrest⟩

variable {it : ObjectHeapIteratorSegregated}

theorem AtAddress.lt (hcell : 0 < cellSize) (h : AtAddress cellSize it base (entry :: entries))
    (hpos : 0 < entry.cells) : it.scanPtr < it.smallPtrTop := by
  rw [h.scanPtr, h.smallPtrTop, endOf, List.map_cons, List.sum_cons]
  have := Nat.mul_pos (show 0 < entry.cells + (entries.map cells).sum by omega) hcell
  omega

theorem AtAddress.not_lt (h : AtAddress cellSize it base []) : ¬ it.scanPtr < it.smallPtrTop := by
  rw [h.scanPtr, h.smallPtrTop, endOf, List.map_nil, List.sum_nil, Nat.zero_mul]
  exact lt_irrefl _

/-- Behind the first entry. -/
theorem AtAddress.next (h : AtAddress cellSize it base (entry :: entries)) {size : ℕ}
    (hsize : size = entry.cells * cellSize) :
    AtAddress cellSize { it with scanPtr := it.scanPtr + size } (base + entry.cells * cellSize)
      entries :=
  ⟨h.type, h.cellSize_eq, by rw [← h.scanPtr, hsize], h.smallPtrTop.trans endOf_cons⟩

end Entries

section NextObject

variable {base fuel calls : ℕ} {entries : List CellEntry} {it : ObjectHeapIteratorSegregated}

/-- One turn of the loop at a live object. -/
theorem nextSmallObject_live (hcell : 0 < cellSize)
    (h : AtAddress cellSize it base (live :: entries))
    (hwalk : Walkable cellSize m base (live :: entries)) :
    nextSmallObject m (fuel + 1) it =
      some ({ it with scanPtr := it.scanPtr + it.cellSize }, some base) := by
  obtain ⟨hpos, hdead, -, -⟩ := walkable_cons hwalk
  rw [nextSmallObject, if_pos (h.lt hcell hpos), h.scanPtr, hdead]
  rfl

/-- One turn of the loop at a hole. -/
theorem nextSmallObject_hole (hcell : 0 < cellSize) {cells : ℕ}
    (h : AtAddress cellSize it base (hole cells :: entries))
    (hwalk : Walkable cellSize m base (hole cells :: entries)) :
    nextSmallObject m (fuel + 1) it =
      if it.includeDeadObjects then
        some ({ it with scanPtr := it.scanPtr + cells * cellSize },
          some (base + cells * cellSize))
      else nextSmallObject m fuel { it with scanPtr := it.scanPtr + cells * cellSize } := by
  obtain ⟨hpos, hdead, hsize, -⟩ := walkable_cons hwalk
  have hsize' : m.getSizeInBytesDeadObject base = cells * cellSize := hwalk.2.2.1
  rw [nextSmallObject, if_pos (h.lt hcell hpos), h.scanPtr, hdead, hsize']
  rfl

theorem nextSmallObject_end (h : AtAddress cellSize it base []) :
    nextSmallObject m (fuel + 1) it = some (it, none) := by
  rw [nextSmallObject, if_neg h.not_lt]

/-- What is returned does not depend on the fuel, if there is one for every entry. -/
theorem nextSmallObject_fuel (hcell : 0 < cellSize) {fuel' : ℕ}
    (h : AtAddress cellSize it base entries) (hwalk : Walkable cellSize m base entries)
    (hfuel : entries.length < fuel) (hfuel' : entries.length < fuel') :
    nextSmallObject m fuel it = nextSmallObject m fuel' it := by
  induction entries generalizing base fuel fuel' it with
  | nil =>
    obtain ⟨fuel, rfl⟩ : ∃ k, fuel = k + 1 := ⟨fuel - 1, by omega⟩
    obtain ⟨fuel', rfl⟩ : ∃ k, fuel' = k + 1 := ⟨fuel' - 1, by omega⟩
    rw [nextSmallObject_end h, nextSmallObject_end h]
  | cons entry entries ih =>
    rw [List.length_cons] at hfuel hfuel'
    obtain ⟨fuel, rfl⟩ : ∃ k, fuel = k + 1 := ⟨fuel - 1, by omega⟩
    obtain ⟨fuel', rfl⟩ : ∃ k, fuel' = k + 1 := ⟨fuel' - 1, by omega⟩
    cases entry with
    | live => rw [nextSmallObject_live hcell h hwalk, nextSmallObject_live hcell h hwalk]
    | hole cells =>
      have hnext := h.next (show cells * cellSize = (hole cells).cells * cellSize from rfl)
      rw [nextSmallObject_hole hcell h hwalk, nextSmallObject_hole hcell h hwalk,
        ih hnext (walkable_cons hwalk).2.2.2 (Nat.lt_of_succ_lt_succ hfuel)
          (Nat.lt_of_succ_lt_succ hfuel')]

theorem nextObject_eq (h : AtAddress cellSize it base entries) :
    nextObject m fuel it = nextSmallObject m fuel it := by
  unfold nextObject
  rw [h.type]

/-- Without dead objects `nextObject` returns the live ones. -/
theorem objects_nextObject_live (hcell : 0 < cellSize) (h : AtAddress cellSize it base entries)
    (hinclude : it.includeDeadObjects = false) (hwalk : Walkable cellSize m base entries)
    (hfuel : entries.length < fuel) (hcalls : entries.length < calls) :
    objects (nextObject m fuel) calls it = some (addresses cellSize false base entries) := by
  induction entries generalizing base calls it with
  | nil =>
    obtain ⟨fuel, rfl⟩ : ∃ k, fuel = k + 1 := ⟨fuel - 1, by omega⟩
    obtain ⟨calls, rfl⟩ : ∃ k, calls = k + 1 := ⟨calls - 1, by omega⟩
    rw [objects, nextObject_eq h, nextSmallObject_end h]
    rfl
  | cons entry entries ih =>
    rw [List.length_cons] at hfuel hcalls
    obtain ⟨fuel, rfl⟩ : ∃ k, fuel = k + 1 := ⟨fuel - 1, by omega⟩
    obtain ⟨calls, rfl⟩ : ∃ k, calls = k + 1 := ⟨calls - 1, by omega⟩
    obtain ⟨-, -, -, hrest⟩ := walkable_cons hwalk
    cases entry with
    | live =>
      have hnext := h.next (show it.cellSize = 1 * cellSize by rw [h.cellSize_eq, one_mul])
      rw [objects, nextObject_eq h, nextSmallObject_live hcell h hwalk, Option.bind_some]
      change (objects (nextObject m (fuel + 1)) calls _).map _ = _
      rw [ih hnext hinclude hrest (by omega) (by omega)]
      rfl
    | hole cells =>
      have hnext := h.next (show cells * cellSize = (hole cells).cells * cellSize from rfl)
      -- a hole is passed within the call
      have hsame : nextObject m (fuel + 1) it =
          nextObject m (fuel + 1) { it with scanPtr := it.scanPtr + cells * cellSize } := by
        rw [nextObject_eq h, nextObject_eq hnext, nextSmallObject_hole hcell h hwalk,
          if_neg (Bool.eq_false_iff.1 hinclude)]
        exact nextSmallObject_fuel hcell hnext hrest (by omega) (by omega)
      have hobjects : objects (nextObject m (fuel + 1)) (calls + 1) it =
          objects (nextObject m (fuel + 1)) (calls + 1)
            { it with scanPtr := it.scanPtr + cells * cellSize } := by
        rw [objects, hsame, ← objects]
      rw [hobjects, ih hnext hinclude hrest (by omega) (by omega)]
      rfl

/-- What `nextObject` returns with dead objects: the address of a live object, but the address
behind a hole. -/
def behindHoles (cellSize : ℕ) : ℕ → List CellEntry → List ℕ
  | _, [] => []
  | base, live :: entries => base :: behindHoles cellSize (base + 1 * cellSize) entries
  | base, hole cells :: entries =>
    (base + cells * cellSize) :: behindHoles cellSize (base + cells * cellSize) entries

theorem objects_nextObject_dead (hcell : 0 < cellSize) (h : AtAddress cellSize it base entries)
    (hinclude : it.includeDeadObjects = true) (hwalk : Walkable cellSize m base entries)
    (hcalls : entries.length < calls) :
    objects (nextObject m (fuel + 1)) calls it = some (behindHoles cellSize base entries) := by
  induction entries generalizing base calls it with
  | nil =>
    obtain ⟨calls, rfl⟩ : ∃ k, calls = k + 1 := ⟨calls - 1, by omega⟩
    rw [objects, nextObject_eq h, nextSmallObject_end h]
    rfl
  | cons entry entries ih =>
    rw [List.length_cons] at hcalls
    obtain ⟨calls, rfl⟩ : ∃ k, calls = k + 1 := ⟨calls - 1, by omega⟩
    obtain ⟨-, -, -, hrest⟩ := walkable_cons hwalk
    cases entry with
    | live =>
      have hnext := h.next (show it.cellSize = 1 * cellSize by rw [h.cellSize_eq, one_mul])
      rw [objects, nextObject_eq h, nextSmallObject_live hcell h hwalk, Option.bind_some]
      change (objects (nextObject m (fuel + 1)) calls _).map _ = _
      rw [ih hnext hinclude hrest (by omega)]
      rfl
    | hole cells =>
      have hnext := h.next (show cells * cellSize = (hole cells).cells * cellSize from rfl)
      rw [objects, nextObject_eq h, nextSmallObject_hole hcell h hwalk, if_pos hinclude,
        Option.bind_some]
      change (objects (nextObject m (fuel + 1)) calls _).map _ = _
      rw [ih hnext hinclude hrest (by omega)]
      rfl

/-- The addresses are right exactly if there is no hole. -/
theorem behindHoles_eq_iff (hcell : 0 < cellSize) (hwalk : Walkable cellSize m base entries) :
    behindHoles cellSize base entries = addresses cellSize true base entries ↔
      ∀ cells, hole cells ∉ entries := by
  induction entries generalizing base with
  | nil => exact iff_of_true rfl fun _ => List.not_mem_nil
  | cons entry entries ih =>
    obtain ⟨hpos, -, -, hrest⟩ := walkable_cons hwalk
    cases entry with
    | live =>
      have hcons : behindHoles cellSize base (live :: entries) =
          addresses cellSize true base (live :: entries) ↔ _ := List.cons_inj_right _
      refine hcons.trans ((ih hrest).trans ⟨fun hall cells hmem => ?_, fun hall cells hmem => ?_⟩)
      · rcases List.mem_cons.1 hmem with heq | hmem
        · cases heq
        · exact hall cells hmem
      · exact hall cells (List.mem_cons_of_mem _ hmem)
    | hole cells =>
      refine iff_of_false (fun heq => ?_) fun hall => hall cells List.mem_cons_self
      have hhead : base + cells * cellSize = base := (List.cons.inj heq).1
      have := Nat.mul_pos (show 0 < cells from hpos) hcell
      omega

end NextObject

section NoAdvance

variable {base fuel calls : ℕ} {entry : CellEntry} {entries : List CellEntry}
  {it : ObjectHeapIteratorSegregated}

theorem included_eq (includeDeadObjects : Bool) :
    (entry.included false || includeDeadObjects) = entry.included includeDeadObjects := by
  cases entry with
  | live => rfl
  | hole cells => rfl

/-- One turn of the loop: over one entry, and on to the next one. -/
theorem advanceSmallObject_cons (hcell : 0 < cellSize)
    (h : AtAddress cellSize it base (entry :: entries))
    (hwalk : Walkable cellSize m base (entry :: entries)) :
    advanceSmallObject m (fuel + 1) it =
      if ∃ next ∈ entries.head?, next.included it.includeDeadObjects = true then
        some ({ it with scanPtr := it.scanPtr + entry.cells * cellSize },
          some (base + entry.cells * cellSize))
      else advanceSmallObject m fuel { it with scanPtr := it.scanPtr + entry.cells * cellSize } := by
  obtain ⟨hpos, -, hsize, hrest⟩ := walkable_cons hwalk
  have hnext := h.next (show entry.cells * cellSize = entry.cells * cellSize from rfl)
  have hscan : it.scanPtr + entry.cells * cellSize = base + entry.cells * cellSize := by
    rw [h.scanPtr]
  have hcond : (it.scanPtr + entry.cells * cellSize < it.smallPtrTop ∧
      (!m.isDeadObject (it.scanPtr + entry.cells * cellSize) || it.includeDeadObjects) = true) ↔
      ∃ next ∈ entries.head?, next.included it.includeDeadObjects = true := by
    cases entries with
    | nil => exact iff_of_false (fun hlt => hnext.not_lt hlt.1) (by simp)
    | cons next rest =>
      obtain ⟨hpos', hdead', -, -⟩ := walkable_cons hrest
      rw [hscan, hdead', Bool.not_not, included_eq, ← hscan]
      simp [hnext.lt hcell hpos']
  rw [advanceSmallObject, if_pos (h.lt hcell hpos), h.cellSize_eq]
  simp only [h.scanPtr] at hsize hcond ⊢
  rw [hsize]
  simp only [hcond]

theorem advanceSmallObject_end (h : AtAddress cellSize it base []) :
    advanceSmallObject m (fuel + 1) it = some (it, none) := by
  rw [advanceSmallObject, if_neg h.not_lt]

theorem advanceSmallObject_fuel (hcell : 0 < cellSize) {fuel' : ℕ}
    (h : AtAddress cellSize it base entries) (hwalk : Walkable cellSize m base entries)
    (hfuel : entries.length < fuel) (hfuel' : entries.length < fuel') :
    advanceSmallObject m fuel it = advanceSmallObject m fuel' it := by
  induction entries generalizing base fuel fuel' it with
  | nil =>
    obtain ⟨fuel, rfl⟩ : ∃ k, fuel = k + 1 := ⟨fuel - 1, by omega⟩
    obtain ⟨fuel', rfl⟩ : ∃ k, fuel' = k + 1 := ⟨fuel' - 1, by omega⟩
    rw [advanceSmallObject_end h, advanceSmallObject_end h]
  | cons entry entries ih =>
    rw [List.length_cons] at hfuel hfuel'
    obtain ⟨fuel, rfl⟩ : ∃ k, fuel = k + 1 := ⟨fuel - 1, by omega⟩
    obtain ⟨fuel', rfl⟩ : ∃ k, fuel' = k + 1 := ⟨fuel' - 1, by omega⟩
    have hnext := h.next (show entry.cells * cellSize = entry.cells * cellSize from rfl)
    rw [advanceSmallObject_cons hcell h hwalk, advanceSmallObject_cons hcell h hwalk,
      ih hnext (walkable_cons hwalk).2.2.2 (Nat.lt_of_succ_lt_succ hfuel)
        (Nat.lt_of_succ_lt_succ hfuel')]

theorem nextObjectNoAdvance_past (h : AtAddress cellSize it base entries)
    (hpast : it.pastFirstObject = true) :
    nextObjectNoAdvance m fuel it = advanceSmallObject m fuel it := by
  unfold nextObjectNoAdvance
  rw [h.type, hpast]
  rfl

/-- Once the first object is past, the entries behind the scan pointer are returned. -/
theorem objects_nextObjectNoAdvance_past (hcell : 0 < cellSize)
    (h : AtAddress cellSize it base (entry :: entries)) (hpast : it.pastFirstObject = true)
    (hwalk : Walkable cellSize m base (entry :: entries)) (hfuel : entries.length + 1 < fuel)
    (hcalls : entries.length < calls) :
    objects (nextObjectNoAdvance m fuel) calls it =
      some (addresses cellSize it.includeDeadObjects (base + entry.cells * cellSize) entries) := by
  induction entries generalizing base calls it entry with
  | nil =>
    obtain ⟨fuel, rfl⟩ : ∃ k, fuel = k + 2 := ⟨fuel - 2, by omega⟩
    obtain ⟨calls, rfl⟩ : ∃ k, calls = k + 1 := ⟨calls - 1, by omega⟩
    have hnext := h.next (show entry.cells * cellSize = entry.cells * cellSize from rfl)
    rw [objects, nextObjectNoAdvance_past h hpast, advanceSmallObject_cons hcell h hwalk,
      if_neg (by simp), advanceSmallObject_end hnext]
    rfl
  | cons next rest ih =>
    rw [List.length_cons] at hfuel hcalls
    obtain ⟨fuel, rfl⟩ : ∃ k, fuel = k + 1 := ⟨fuel - 1, by omega⟩
    obtain ⟨calls, rfl⟩ : ∃ k, calls = k + 1 := ⟨calls - 1, by omega⟩
    have hnext := h.next (show entry.cells * cellSize = entry.cells * cellSize from rfl)
    have hrest := (walkable_cons hwalk).2.2.2
    by_cases hincluded : next.included it.includeDeadObjects = true
    · rw [objects, nextObjectNoAdvance_past h hpast, advanceSmallObject_cons hcell h hwalk,
        if_pos ⟨next, rfl, hincluded⟩, Option.bind_some]
      change (objects (nextObjectNoAdvance m (fuel + 1)) calls _).map _ = _
      rw [ih hnext hpast hrest (by omega) (by omega), addresses, if_pos hincluded]
      rfl
    · have hnot : ¬ ∃ next' ∈ (next :: rest).head?, next'.included it.includeDeadObjects = true := by
        rintro ⟨next', heq, htrue⟩
        cases heq
        exact hincluded htrue
      have hsame : nextObjectNoAdvance m (fuel + 1) it = nextObjectNoAdvance m (fuel + 1)
          { it with scanPtr := it.scanPtr + entry.cells * cellSize } := by
        rw [nextObjectNoAdvance_past h hpast, nextObjectNoAdvance_past hnext hpast,
          advanceSmallObject_cons hcell h hwalk, if_neg hnot]
        exact advanceSmallObject_fuel hcell hnext hrest
          (by rw [List.length_cons]; omega) (by rw [List.length_cons]; omega)
      have hobjects : objects (nextObjectNoAdvance m (fuel + 1)) (calls + 1) it =
          objects (nextObjectNoAdvance m (fuel + 1)) (calls + 1)
            { it with scanPtr := it.scanPtr + entry.cells * cellSize } := by
        rw [objects, hsame, ← objects]
      rw [hobjects, ih hnext hpast hrest (by omega) (by omega), addresses, if_neg hincluded]

/-- The first call, which does not move on. -/
theorem nextObjectNoAdvance_first (htype : it.type = .segregatedSmall)
    (hpast : it.pastFirstObject = false) :
    nextObjectNoAdvance m fuel it =
      if it.scanPtr ≥ it.smallPtrTop then some ({ it with pastFirstObject := true }, none)
      else if (!m.isDeadObject it.scanPtr || it.includeDeadObjects) = true then
        some ({ it with pastFirstObject := true }, some it.scanPtr)
      else advanceSmallObject m fuel { it with pastFirstObject := true } := by
  obtain ⟨scanPtr, scanPtrTop, type, cellSize, includeDeadObjects, past, smallPtrTop⟩ := it
  cases htype
  cases hpast
  rfl

/-- `nextObjectNoAdvance` returns the entries that are iterated over. -/
theorem objects_nextObjectNoAdvance (hcell : 0 < cellSize) (h : AtAddress cellSize it base entries)
    (hpast : it.pastFirstObject = false) (hwalk : Walkable cellSize m base entries)
    (hfuel : entries.length < fuel) (hcalls : entries.length < calls) :
    objects (nextObjectNoAdvance m fuel) calls it =
      some (addresses cellSize it.includeDeadObjects base entries) := by
  cases entries with
  | nil =>
    obtain ⟨calls, rfl⟩ : ∃ k, calls = k + 1 := ⟨calls - 1, by omega⟩
    have hfirst : nextObjectNoAdvance m fuel it =
        some ({ it with pastFirstObject := true }, none) :=
      (nextObjectNoAdvance_first h.type hpast).trans (if_pos (Nat.le_of_not_lt h.not_lt))
    rw [objects, hfirst]
    rfl
  | cons entry rest =>
    rw [List.length_cons] at hfuel hcalls
    obtain ⟨calls, rfl⟩ : ∃ k, calls = k + 1 := ⟨calls - 1, by omega⟩
    obtain ⟨hpos, hdead, -, -⟩ := walkable_cons hwalk
    have hpastIt : AtAddress cellSize { it with pastFirstObject := true } base (entry :: rest) :=
      ⟨h.type, h.cellSize_eq, h.scanPtr, h.smallPtrTop⟩
    have hrest : ∀ n, rest.length < n →
        objects (nextObjectNoAdvance m fuel) n { it with pastFirstObject := true } =
          some (addresses cellSize it.includeDeadObjects (base + entry.cells * cellSize) rest) :=
      fun n hn => objects_nextObjectNoAdvance_past hcell hpastIt rfl hwalk hfuel hn
    have hfirst : nextObjectNoAdvance m fuel it =
        if entry.included it.includeDeadObjects = true then
          some ({ it with pastFirstObject := true }, some base)
        else advanceSmallObject m fuel { it with pastFirstObject := true } := by
      rw [nextObjectNoAdvance_first h.type hpast, if_neg (Nat.not_le.2 (h.lt hcell hpos)),
        h.scanPtr, hdead, Bool.not_not, included_eq]
    rw [addresses]
    by_cases hincluded : entry.included it.includeDeadObjects = true
    · rw [objects, hfirst, if_pos hincluded, if_pos hincluded, Option.bind_some]
      change (objects (nextObjectNoAdvance m fuel) calls _).map _ = _
      rw [hrest calls (by omega)]
      rfl
    · have hobjects : objects (nextObjectNoAdvance m fuel) (calls + 1) it =
          objects (nextObjectNoAdvance m fuel) (calls + 1) { it with pastFirstObject := true } := by
        rw [objects, objects, hfirst, if_neg hincluded, nextObjectNoAdvance_past hpastIt rfl]
      rw [hobjects, hrest _ (by omega), if_neg hincluded]

end NoAdvance

section Iteration

variable {base top fuel calls : ℕ} {entries : List CellEntry}

/-- The entries fill the whole cells between two addresses. -/
structure Region (m : ObjectMemory) (cellSize base top : ℕ) (entries : List CellEntry) :
    Prop where
  cellSize_pos : 0 < cellSize
  walkable : Walkable cellSize m base entries
  cells : (entries.map cells).sum = (top - base) / cellSize

/-- The constructor puts the iterator at the base. -/
theorem new_atAddress (h : Region m cellSize base top entries) (includeDeadObjects : Bool) :
    AtAddress cellSize (new base top .segregatedSmall cellSize includeDeadObjects false) base
      entries := by
  refine ⟨rfl, rfl, rfl, ?_⟩
  rw [endOf, h.cells]
  rfl

theorem addresses_lt (hcell : 0 < cellSize) {includeDeadObjects : Bool}
    (hwalk : Walkable cellSize m base entries) {object : ℕ}
    (hobject : object ∈ addresses cellSize includeDeadObjects base entries) :
    object < endOf cellSize base entries := by
  induction entries generalizing base with
  | nil => cases hobject
  | cons entry entries ih =>
    obtain ⟨hpos, -, -, hrest⟩ := walkable_cons hwalk
    rw [endOf_cons]
    have hend : base < endOf cellSize (base + entry.cells * cellSize) entries := by
      have := Nat.mul_pos hpos hcell
      unfold endOf
      omega
    rw [addresses] at hobject
    split at hobject
    · rcases List.mem_cons.1 hobject with rfl | hobject
      · exact hend
      · exact ih hrest hobject
    · exact ih hrest hobject

/-- Both iterations return the addresses of the entries that are iterated over, all of them below
the top. -/
def Iterates (m : ObjectMemory) (fuel : ℕ) (cellSize base top : ℕ) (entries : List CellEntry)
    (includeDeadObjects : Bool) : Prop :=
  let it := new base top .segregatedSmall cellSize includeDeadObjects false
  let expected := addresses cellSize includeDeadObjects base entries
  objects (nextObject m fuel) fuel it = some expected ∧
  objects (nextObjectNoAdvance m fuel) fuel it = some expected ∧
  ∀ object ∈ expected, object < top

/-- Both iterations of a walkable region are right, given fuel for its entries, except that
`nextObject` is wrong where dead objects are included and there is a hole. -/
theorem iterates_iff (m : ObjectMemory) {cellSize base top : ℕ} {entries : List CellEntry}
    (h : Region m cellSize base top entries) {fuel : ℕ} (hfuel : entries.length < fuel)
    (includeDeadObjects : Bool) :
    Iterates m fuel cellSize base top entries includeDeadObjects ↔
      (includeDeadObjects = true → ∀ cells, hole cells ∉ entries) := by
  have hat := new_atAddress h includeDeadObjects
  obtain ⟨hcell, hwalk, hcells⟩ := h
  have hlt : ∀ object ∈ addresses cellSize includeDeadObjects base entries, object < top := by
    intro object hobject
    have hend := addresses_lt hcell hwalk hobject
    have hle := Nat.div_mul_le_self (top - base) cellSize
    rw [endOf, hcells] at hend
    cases entries with
    | nil => cases hobject
    | cons entry entries =>
      have hpos : 0 < (top - base) / cellSize := by
        rw [← hcells, List.map_cons, List.sum_cons]
        have := (walkable_cons hwalk).1
        omega
      have := Nat.mul_pos hpos hcell
      omega
  have hnoAdvance := objects_nextObjectNoAdvance hcell hat rfl hwalk hfuel hfuel
  cases includeDeadObjects with
  | false =>
    have hnext := objects_nextObject_live hcell hat rfl hwalk hfuel hfuel
    exact iff_of_true ⟨hnext, hnoAdvance, hlt⟩ fun h => absurd h Bool.false_ne_true
  | true =>
    obtain ⟨fuel, rfl⟩ : ∃ k, fuel = k + 1 := ⟨fuel - 1, by omega⟩
    have hnext : objects (nextObject m (fuel + 1)) (fuel + 1) _ = _ :=
      objects_nextObject_dead hcell hat rfl hwalk hfuel
    rw [← behindHoles_eq_iff hcell hwalk]
    constructor
    · rintro ⟨hobjects, -, -⟩ -
      exact Option.some_inj.1 (hnext.symm.trans hobjects)
    · intro heq
      exact ⟨hnext.trans (congrArg some (heq rfl)), hnoAdvance, hlt⟩

/-- A memory in which a live object at 4096 is followed by a hole of two cells of 32 bytes. -/
def objectAndHole : ObjectMemory :=
  ⟨fun a => if a = 4128 then 1 else 0, fun a => if a = 4128 then 64 else 0, false⟩

theorem objectAndHole_region : Region objectAndHole 32 4096 4192 [live, hole 2] :=
  ⟨by decide, ⟨by decide, by decide, by decide, by decide, trivial⟩, by decide⟩

theorem iterates_iff_objectAndHole :
    Iterates objectAndHole 3 32 4096 4192 [live, hole 2] false :=
  (iterates_iff objectAndHole objectAndHole_region (by decide) false).2
    fun h => absurd h Bool.false_ne_true

/-- Of the hole `nextObject` returns the address behind it, which is the top of the region. -/
theorem iterates_objectAndHole_fails :
    objects (nextObject objectAndHole 3) 3 (new 4096 4192 .segregatedSmall 32 true false) =
      some [4096, 4192] ∧
    ¬ Iterates objectAndHole 3 32 4096 4192 [live, hole 2] true := by
  have hrun : objects (nextObject objectAndHole 3) 3
      (new 4096 4192 .segregatedSmall 32 true false) = some [4096, 4192] := by decide
  refine ⟨hrun, fun h => ?_⟩
  exact absurd (hrun.symm.trans h.1) (by decide)

end Iteration

end ObjectHeapIteratorSegregated

end OMR.GC
