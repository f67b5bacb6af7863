import Mathlib.Data.BitVec
import OMR.Lib.Runs

/-!
# Shape transitions

Objects share shapes, each of which lays out some slots behind those of its parent. The
shapes derived from one are kept in its transition set, an open table that is probed by a
hash of the slot attributes.
-/

namespace OMR.Om

inductive CoreType where
  | int8 | int16 | int32 | int64 | float32 | float64 | value | ref | ptr
  deriving DecidableEq

/-- The number of the enumerator. -/
def CoreType.toSize : CoreType → BitVec 64
  | int8 => 0 | int16 => 1 | int32 => 2 | int64 => 3
  | float32 => 4 | float64 => 5 | value => 6 | ref => 7 | ptr => 8

/-- A pointer is no case of the switch, and falls to `return -1`. -/
def coreTypeWidth : CoreType → BitVec 64
  | .int8 => 1 | .int16 => 2 | .int32 => 4 | .int64 => 8
  | .float32 => 4 | .float64 => 8 | .value => 8 | .ref => 8
  | .ptr => -1

structure SlotType where
  id : BitVec 32
  coreType : CoreType
  deriving DecidableEq

structure SlotAttr where
  type : SlotType
  id : BitVec 32
  deriving DecidableEq

/-- `Hash::mix`. -/
def mix (a b : BitVec 64) : BitVec 64 := ((a ^^^ b) <<< 3) * 7

/-- `Id::hash`. -/
def hashId (data : BitVec 32) : BitVec 64 := mix (data.setWidth 64) ((data + 5).setWidth 64)

def SlotType.hash (t : SlotType) : BitVec 64 := mix (hashId t.id) t.coreType.toSize

def SlotAttr.hash (a : SlotAttr) : BitVec 64 := mix (hashId a.id) a.type.hash

/-- `hash` of a span: what `mix` returns is not used. -/
def hash (ds : List SlotAttr) : BitVec 64 :=
  ds.foldl (fun h d => let _mixed := mix h d.hash; h) 7

/-- `operator==` of slot types, which looks at the id only. -/
def slotTypeEq (a b : SlotType) : Bool := a.id = b.id

/-- `operator==` of slot attributes. -/
def slotAttrEq (a b : SlotAttr) : Bool := a.id = b.id ∧ slotTypeEq a.type b.type

/-- `operator==` of spans. That two spans at one address are equal only saves the loop. -/
def spanEq (lhs rhs : List SlotAttr) : Bool :=
  if lhs.length ≠ rhs.length then true
  else (lhs.zip rhs).all fun (l, r) => slotAttrEq l r

/-- The table of an initialized `TransitionSet`. Shapes are known by the order in which they
are allocated. -/
structure TransitionTable where
  size : ℕ
  entry : ℕ → Option ℕ

structure Shape where
  parentLayout : Option ℕ
  transitions : Option TransitionTable
  instanceSlotOffset : BitVec 64
  instanceSlotWidth : BitVec 64
  instanceSlotAttrs : List SlotAttr

/-- The shapes that have been allocated and the shape of every object. -/
structure Heap where
  numShapes : ℕ
  shape : ℕ → Shape
  layout : ℕ → ℕ

/-- The indices of the table in the order in which they are tried. -/
def probes (hash : BitVec 64) (size : ℕ) : List ℕ :=
  (List.range size).map fun i => (hash + BitVec.ofNat 64 i).toNat % size

/-- The width that `assignSlotAttrIntoShape` adds up. -/
def slotsWidth (attributes : List SlotAttr) : BitVec 64 :=
  (attributes.map fun a => coreTypeWidth a.type.coreType).sum

/-- `set.table[idx] = entry`. -/
def TransitionTable.set (table : TransitionTable) (idx entry : ℕ) : TransitionTable :=
  { table with entry := Function.update table.entry idx (some entry) }

/-- The loop of `tryStoreTransition`. -/
def TransitionTable.storeAmong (table : TransitionTable) (entry : ℕ) :
    List ℕ → Bool × TransitionTable
  | [] => (false, table)
  | idx :: rest =>
    if table.entry idx = none then (true, table.set idx entry)
    else table.storeAmong entry rest

def tryStoreTransition (set : Option TransitionTable) (entry : ℕ) (hash : BitVec 64) :
    Bool × Option TransitionTable :=
  match set with
  | none => (false, none)
  | some table => (table.storeAmong entry (probes hash table.size)).map id some

/-- `initializeTransitionSet`. -/
def initializeTransitionSet (initialSetSize : ℕ) : TransitionTable := ⟨initialSetSize, fun _ => none⟩

def storeTransition (set : Option TransitionTable) (entry : ℕ) (hash : BitVec 64) :
    Bool × Option TransitionTable :=
  let set := set.or (some (initializeTransitionSet 32))
  tryStoreTransition set entry hash

namespace Heap

/-- The loop of `lookUpTransition`. -/
def lookUpAmong (h : Heap) (table : TransitionTable) (attributes : List SlotAttr) :
    List ℕ → Option ℕ
  | [] => none
  | index :: rest =>
    match table.entry index with
    | none => none
    | some shape =>
      if spanEq attributes (h.shape shape).instanceSlotAttrs then some shape
      else h.lookUpAmong table attributes rest

def lookUpTransition (h : Heap) (shape : ℕ) (attributes : List SlotAttr) (hash : BitVec 64) :
    Option ℕ :=
  (h.shape shape).transitions.bind fun table =>
    h.lookUpAmong table attributes (probes hash table.size)

def setShape (h : Heap) (shape : ℕ) (value : Shape) : Heap :=
  { h with shape := Function.update h.shape shape value }

def setLayout (h : Heap) (object layout : ℕ) : Heap :=
  { h with layout := Function.update h.layout object layout }

/-- `ObjectLayoutInitializer`. -/
def initializedLayout (h : Heap) (parentLayout : ℕ) (attributes : List SlotAttr) : Shape :=
  ⟨some parentLayout, none,
    (h.shape parentLayout).instanceSlotOffset + (h.shape parentLayout).instanceSlotWidth,
    slotsWidth attributes, attributes⟩

def allocateObjectLayout (h : Heap) (parentLayout : ℕ) (attributes : List SlotAttr) : Heap :=
  { h.setShape h.numShapes (h.initializedLayout parentLayout attributes) with
    numShapes := h.numShapes + 1 }

/-- The heap and the shape that `deriveObjectLayout` returns. -/
def deriveObjectLayout (h : Heap) (base : ℕ) (attr : List SlotAttr) (hash : BitVec 64) : Heap × ℕ :=
  let set := (h.shape base).transitions.or (some (initializeTransitionSet 32))
  let h := h.setShape base { h.shape base with transitions := set }
  let derivation := h.numShapes
  let h := h.allocateObjectLayout base attr
  let set := (storeTransition (h.shape base).transitions derivation hash).2
  (h.setShape base { h.shape base with transitions := set }, derivation)

def takeExistingTransition (h : Heap) (object : ℕ) (attributes : List SlotAttr)
    (hash : BitVec 64) : Heap × Option ℕ :=
  let derivation := h.lookUpTransition (h.layout object) attributes hash
  (derivation.elim h (h.setLayout object), derivation)

def takeNewTransition (h : Heap) (object : ℕ) (attributes : List SlotAttr) (hash : BitVec 64) :
    Heap × ℕ :=
  let (h, derivation) := h.deriveObjectLayout (h.layout object) attributes hash
  (h.setLayout object derivation, derivation)

def transitionLayout (h : Heap) (object : ℕ) (attributes : List SlotAttr) : Heap × ℕ :=
  match h.takeExistingTransition object attributes (hash attributes) with
  | (h, some derivation) => (h, derivation)
  | (h, none) => h.takeNewTransition object attributes (hash attributes)

/-- The slots of the shapes from `shape` up to the root, over at most `fuel` shapes. -/
def slotsWithin (h : Heap) : ℕ → ℕ → List SlotAttr
  | 0, _ => []
  | fuel + 1, shape =>
    (h.shape shape).parentLayout.elim [] (h.slotsWithin fuel) ++
      (h.shape shape).instanceSlotAttrs

/-- All slots of an object with the shape. A parent is allocated before its derivations. -/
def slots (h : Heap) (shape : ℕ) : List SlotAttr := h.slotsWithin (shape + 1) shape

end Heap

/-- A heap with one root layout, `allocateRootObjectLayout`, which every object has. -/
def rootHeap (attrs : List SlotAttr) : Heap :=
  ⟨1, fun _ => ⟨none, none, 0, slotsWidth attrs, attrs⟩, fun _ => 0⟩

section Spans

variable {a b : List SlotAttr}

/-- All that the comparison looks at. -/
def idsOf (attributes : List SlotAttr) : List (BitVec 32 × BitVec 32) :=
  attributes.map fun a => (a.id, a.type.id)

theorem hash_eq (ds : List SlotAttr) : hash ds = 7 := by
  induction ds with
  | nil => rfl
  | cons d ds ih => exact ih

theorem slotAttrEq_iff {x y : SlotAttr} :
    slotAttrEq x y = true ↔ (x.id, x.type.id) = (y.id, y.type.id) := by
  simp [slotAttrEq, slotTypeEq]

/-- Spans are taken for equal when their lengths differ or their ids agree. -/
theorem spanEq_iff : spanEq a b = true ↔ a.length ≠ b.length ∨ idsOf a = idsOf b := by
  unfold spanEq
  split
  · next hne => simp [hne]
  · next hlen =>
    rw [not_not] at hlen
    simp only [hlen, ne_eq, not_true_eq_false, false_or]
    induction a generalizing b with
    | nil =>
      obtain rfl := List.length_eq_zero_iff.1 hlen.symm
      simp [idsOf]
    | cons x a ih =>
      cases b with
      | nil => cases hlen
      | cons y b =>
        have hrest := ih (Nat.succ.inj hlen)
        simp only [List.zip_cons_cons, List.all_cons, Bool.and_eq_true, slotAttrEq_iff, hrest]
        simp [idsOf]

theorem spanEq_comm : spanEq a b = spanEq b a := by
  rw [Bool.eq_iff_iff, spanEq_iff, spanEq_iff, ne_comm, eq_comm (a := idsOf a)]

theorem spanEq_refl (a : List SlotAttr) : spanEq a a = true := spanEq_iff.2 (.inr rfl)

end Spans

section Tables

variable {table : TransitionTable} {stored : List ℕ} {idxs : List ℕ}

/-- A lookup sees the entries in the order of the probes up to the first empty one. -/
theorem Heap.lookUpAmong_eq (h : Heap) {rest : List (Option ℕ)} (attributes : List SlotAttr)
    (hidxs : idxs.map table.entry = stored.map some ++ rest) (hrest : rest.head? = none ∨
      rest.head? = some none) : h.lookUpAmong table attributes idxs =
      stored.find? fun d => spanEq attributes (h.shape d).instanceSlotAttrs := by
  induction stored generalizing idxs with
  | nil =>
    cases idxs with
    | nil => rfl
    | cons idx idxs =>
      obtain rfl : rest = (idx :: idxs).map table.entry := hidxs.symm
      have hnone : table.entry idx = none := by simpa using hrest
      simp [Heap.lookUpAmong, hnone]
  | cons d stored ih =>
    cases idxs with
    | nil => cases hidxs
    | cons idx idxs =>
      simp only [List.map_cons, List.cons_append, List.cons.injEq] at hidxs
      rw [Heap.lookUpAmong, hidxs.1, List.find?_cons, ih hidxs.2]
      simp only
      cases spanEq attributes (h.shape d).instanceSlotAttrs <;> simp

theorem TransitionTable.set_entry_self (idx entry : ℕ) :
    (table.set idx entry).entry idx = some entry := Function.update_self ..

theorem TransitionTable.set_entry_of_ne {idx j : ℕ} (h : j ≠ idx) (entry : ℕ) :
    (table.set idx entry).entry j = table.entry j := Function.update_of_ne h ..

/-- A transition is stored at the first empty entry. -/
theorem TransitionTable.storeAmong_eq {rest : List (Option ℕ)} (entry : ℕ) (hnodup : idxs.Nodup)
    (hidxs : idxs.map table.entry = stored.map some ++ none :: rest) :
    ∃ j ∈ idxs, table.storeAmong entry idxs = (true, table.set j entry) ∧
      idxs.map (table.set j entry).entry = (stored ++ [entry]).map some ++ rest := by
  induction stored generalizing idxs with
  | nil =>
    cases idxs with
    | nil => cases hidxs
    | cons idx idxs =>
      have hnot := (List.nodup_cons.1 hnodup).1
      simp only [List.map_cons, List.map_nil, List.nil_append, List.cons.injEq] at hidxs
      refine ⟨idx, List.mem_cons_self, by rw [storeAmong, if_pos hidxs.1], ?_⟩
      have hsame : idxs.map (table.set idx entry).entry = idxs.map table.entry := by
        refine List.map_congr_left fun j hj => set_entry_of_ne ?_ _
        rintro rfl
        exact hnot hj
      rw [List.map_cons, set_entry_self, hsame, hidxs.2]
      rfl
  | cons d stored ih =>
    cases idxs with
    | nil => cases hidxs
    | cons idx idxs =>
      obtain ⟨hnot, hnodup⟩ := List.nodup_cons.1 hnodup
      simp only [List.map_cons, List.cons_append, List.cons.injEq] at hidxs
      obtain ⟨j, hj, hstore, hentries⟩ := ih hnodup hidxs.2
      have hne : idx ≠ j := fun heq => hnot (heq ▸ hj)
      have hsome : table.entry idx ≠ none := by rw [hidxs.1]; exact Option.some_ne_none d
      refine ⟨j, List.mem_cons_of_mem _ hj, by rw [storeAmong, if_neg hsome, hstore], ?_⟩
      have hfirst : (table.set j entry).entry idx = some d := by
        rw [set_entry_of_ne hne, hidxs.1]
      rw [List.map_cons, hfirst, hentries]
      rfl

/-- A full table stays as it is. -/
theorem TransitionTable.storeAmong_full (entry : ℕ)
    (hidxs : idxs.map table.entry = stored.map some) :
    table.storeAmong entry idxs = (false, table) := by
  induction idxs generalizing stored with
  | nil => rfl
  | cons idx idxs ih =>
    cases stored with
    | nil => cases hidxs
    | cons d stored =>
      simp only [List.map_cons, List.cons.injEq] at hidxs
      rw [storeAmong, if_neg (by rw [hidxs.1]; exact Option.some_ne_none d), ih hidxs.2]

end Tables

end OMR.Om
