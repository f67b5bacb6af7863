import OMR.Om.TransitionRuns
import Mathlib.Order.CompletePartialOrder

/-!
# Slot layout

A shape places its slots behind those of its parents: it stores where they begin, and an
iterator over its slots adds up the widths again. A slot of an object is looked up in its
shape and then in the parents of the shape.
-/

namespace OMR.Om

/-- `width` of a slot attribute. -/
def SlotAttr.width (a : SlotAttr) : BitVec 64 := coreTypeWidth a.type.coreType

structure SlotDescriptor where
  offset : BitVec 64
  attr : SlotAttr
  deriving DecidableEq

namespace SlotDescriptor

/-- The bytes of the slot in an object. -/
def bytes (d : SlotDescriptor) : Set ℕ :=
  Set.Ico d.offset.toNat (d.offset.toNat + d.attr.width.toNat)

end SlotDescriptor

/-- `SlotDescriptorRange` from an iterator at an offset on. -/
def slotDescriptors : BitVec 64 → List SlotAttr → List SlotDescriptor
  | _, [] => []
  | offset, current :: rest => ⟨offset, current⟩ :: slotDescriptors (offset + current.width) rest

def Shape.instanceSlotDescriptorRange (s : Shape) : List SlotDescriptor :=
  slotDescriptors s.instanceSlotOffset s.instanceSlotAttrs

namespace Heap

variable (h : Heap)

/-- The shapes that the iteration of a `LayoutTree` visits, over at most `fuel` of them. -/
def layoutTreeWithin : ℕ → ℕ → List ℕ
  | 0, _ => []
  | fuel + 1, shape => shape :: (h.shape shape).parentLayout.elim [] (layoutTreeWithin fuel)

def layoutTree (start : ℕ) : List ℕ := h.layoutTreeWithin (start + 1) start

/-- `lookupSlot`: what it puts in `result`, if it returns true. -/
def lookupSlot (object : ℕ) (id : BitVec 32) : Option SlotDescriptor :=
  (h.layoutTree (h.layout object)).findSome? fun shape =>
    (h.shape shape).instanceSlotDescriptorRange.find? fun descriptor => descriptor.attr.id = id

/-- The heaps of a root layout, shapes derived from each other, and objects with these shapes. -/
inductive Laid (attrs : List SlotAttr) : Heap → Prop
  | root : Laid attrs (rootHeap attrs)
  | derive {h : Heap} {base : ℕ} (attributes : List SlotAttr) (hash : BitVec 64) :
      Laid attrs h → base < h.numShapes →
      Laid attrs (h.deriveObjectLayout base attributes hash).1
  | allocateObject {h : Heap} {shape : ℕ} (object : ℕ) :
      Laid attrs h → shape < h.numShapes → Laid attrs (h.setLayout object shape)

/-- The slots of the parents of a shape. -/
def ancestorSlots (s : ℕ) : List SlotAttr := (h.shape s).parentLayout.elim [] h.slots

/-- The descriptors of all shapes of the layout tree, those of the root first. -/
def descriptors (s : ℕ) : List SlotDescriptor :=
  (h.layoutTree s).reverse.flatMap fun a => (h.shape a).instanceSlotDescriptorRange

end Heap

/-- The sum of the widths of slots. -/
def totalWidth (l : List SlotAttr) : ℕ := (l.map fun a => a.width.toNat).sum

/-- Each slot begins where the one before it ends. -/
def Contiguous : ℕ → List SlotDescriptor → Prop
  | _, [] => True
  | start, d :: rest => d.offset.toNat = start ∧ Contiguous (start + d.attr.width.toNat) rest

/-- A lookup finds the first slot with the id of the first shape that has one. -/
structure LookedUp (h : Heap) (s : ℕ) (id : BitVec 32) (d : SlotDescriptor) : Prop where
  id_eq : d.attr.id = id
  placed : ∃ derived a parents before after,
    h.layoutTree s = derived ++ a :: parents ∧
    (∀ b ∈ derived, ∀ x ∈ (h.shape b).instanceSlotAttrs, x.id ≠ id) ∧
    (h.shape a).instanceSlotAttrs = before ++ d.attr :: after ∧ (∀ x ∈ before, x.id ≠ id) ∧
    (h.shape a).instanceSlotDescriptorRange[before.length]? = some d

/-- The layout of the objects with a shape. -/
structure LaidOut (h : Heap) (s : ℕ) : Prop where
  offset_eq : ∀ a ∈ h.layoutTree s,
    (h.shape a).instanceSlotOffset.toNat = totalWidth (h.ancestorSlots a)
  contiguous : Contiguous 0 (h.descriptors s)
  disjoint : (h.descriptors s).Pairwise fun d e => Disjoint d.bytes e.bytes
  lookup_some : ∀ object, h.layout object = s → ∀ id d,
    h.lookupSlot object id = some d → LookedUp h s id d
  lookup_none : ∀ object, h.layout object = s → ∀ id, h.lookupSlot object id = none →
    ∀ a ∈ h.layoutTree s, ∀ x ∈ (h.shape a).instanceSlotAttrs, x.id ≠ id

/-- No offset exceeds a word: neither that of the shape nor that of the last slot. -/
def NoWrap (h : Heap) (s : ℕ) : Prop :=
  totalWidth (h.ancestorSlots s) < 2 ^ 64 ∧ totalWidth (h.slots s).dropLast < 2 ^ 64

section Widths

theorem totalWidth_append (l l' : List SlotAttr) :
    totalWidth (l ++ l') = totalWidth l + totalWidth l' := by
  simp [totalWidth]

/-- The code adds the widths up in a word. -/
theorem slotsWidth_eq (l : List SlotAttr) : slotsWidth l = BitVec.ofNat 64 (totalWidth l) := by
  induction l with
  | nil => rfl
  | cons a l ih =>
    change a.width + slotsWidth l = BitVec.ofNat 64 (a.width.toNat + totalWidth l)
    rw [ih, BitVec.ofNat_add, BitVec.ofNat_toNat, BitVec.setWidth_eq]

theorem slotDescriptors_append (offset : BitVec 64) (l l' : List SlotAttr) :
    slotDescriptors offset (l ++ l') =
      slotDescriptors offset l ++ slotDescriptors (offset + slotsWidth l) l' := by
  induction l generalizing offset with
  | nil =>
    have hzero : offset + slotsWidth [] = offset := BitVec.add_zero _
    rw [hzero]
    rfl
  | cons a l ih =>
    have hwidth : slotsWidth (a :: l) = a.width + slotsWidth l := rfl
    rw [List.cons_append, slotDescriptors, ih, hwidth, ← BitVec.add_assoc]
    rfl

theorem slotDescriptors_attr (offset : BitVec 64) (l : List SlotAttr) :
    (slotDescriptors offset l).map SlotDescriptor.attr = l := by
  induction l generalizing offset with
  | nil => rfl
  | cons a l ih => rw [slotDescriptors, List.map_cons, ih]

/-- What the iterator places is contiguous exactly if no slot begins beyond a word. -/
theorem contiguous_iff (n : ℕ) (l : List SlotAttr) :
    Contiguous n (slotDescriptors (BitVec.ofNat 64 n) l) ↔
      (l ≠ [] → n + totalWidth l.dropLast < 2 ^ 64) := by
  induction l generalizing n with
  | nil => exact iff_of_true trivial fun h => absurd rfl h
  | cons a l ih =>
    have hoffset : BitVec.ofNat 64 n + a.width = BitVec.ofNat 64 (n + a.width.toNat) := by
      rw [BitVec.ofNat_add, BitVec.ofNat_toNat, BitVec.setWidth_eq]
    have hword : (BitVec.ofNat 64 n).toNat = n ↔ n < 2 ^ 64 := by
      rw [BitVec.toNat_ofNat]
      exact Nat.mod_eq_iff_lt (by decide)
    rw [slotDescriptors, Contiguous, hoffset, ih, hword]
    cases l with
    | nil => simp [totalWidth]
    | cons b l =>
      have hdrop : totalWidth (a :: b :: l).dropLast =
          a.width.toNat + totalWidth (b :: l).dropLast := by
        rw [List.dropLast_cons_cons]
        rfl
      rw [hdrop]
      simp only [ne_eq, reduceCtorEq, not_false_eq_true, true_imp_iff]
      omega

theorem Contiguous.le {n : ℕ} {l : List SlotDescriptor} (h : Contiguous n l) {d : SlotDescriptor}
    (hd : d ∈ l) : n ≤ d.offset.toNat := by
  induction l generalizing n with
  | nil => cases hd
  | cons e l ih =>
    rcases List.mem_cons.1 hd with rfl | hd
    · exact h.1.ge
    · have := ih h.2 hd
      omega

/-- Slots that are contiguous have no byte in common. -/
theorem Contiguous.disjoint {n : ℕ} {l : List SlotDescriptor} (h : Contiguous n l) :
    l.Pairwise fun d e => Disjoint d.bytes e.bytes := by
  induction l generalizing n with
  | nil => exact List.Pairwise.nil
  | cons d l ih =>
    refine List.pairwise_cons.2 ⟨fun e he => ?_, ih h.2⟩
    have hle := Contiguous.le h.2 he
    refine Set.disjoint_left.2 fun x hx hx' => ?_
    have hlt := hx.2
    have hge := hx'.1
    rw [h.1] at hlt
    omega

end Widths

namespace Heap

section Derivations

variable {h : Heap} {base s : ℕ} {attributes : List SlotAttr} {hash : BitVec 64}

/-- Where the shapes store that their slots begin, and how wide they are. -/
structure Placed (h : Heap) : Prop where
  parentsFirst : h.ParentsFirst
  root : ∀ s, s < h.numShapes → (h.shape s).parentLayout = none →
    (h.shape s).instanceSlotOffset = 0
  derived : ∀ s p, s < h.numShapes → (h.shape s).parentLayout = some p →
    (h.shape s).instanceSlotOffset = (h.shape p).instanceSlotOffset + (h.shape p).instanceSlotWidth
  width : ∀ s, s < h.numShapes →
    (h.shape s).instanceSlotWidth = slotsWidth (h.shape s).instanceSlotAttrs

theorem Placed.derive (h' : Placed h) (hb : base < h.numShapes) (attributes : List SlotAttr)
    (hash : BitVec 64) : Placed (h.deriveObjectLayout base attributes hash).1 := by
  have hold : ∀ s, s < h.numShapes → ∃ transitions,
      (h.deriveObjectLayout base attributes hash).1.shape s =
        { h.shape s with transitions := transitions } := fun s hs =>
        deriveObjectLayout_kept hs base attributes hash
  have hnew := deriveObjectLayout_new hb attributes hash
  have hcases : ∀ s, s < h.numShapes + 1 → s < h.numShapes ∨ s = h.numShapes := fun s hs =>
    Nat.lt_succ_iff_lt_or_eq.1 hs
  refine ⟨fun s p hs hp => ?_, fun s hs hp => ?_, fun s p hs hp => ?_, fun s hs => ?_⟩
  · rcases hcases s hs with hlt | rfl
    · obtain ⟨transitions, heq⟩ := hold s hlt
      rw [heq] at hp
      exact h'.parentsFirst s p hlt hp
    · rw [hnew] at hp
      exact Option.some_inj.1 hp ▸ hb
  · rcases hcases s hs with hlt | rfl
    · obtain ⟨transitions, heq⟩ := hold s hlt
      rw [heq] at hp ⊢
      exact h'.root s hlt hp
    · rw [hnew] at hp
      cases hp
  · rcases hcases s hs with hlt | rfl
    · obtain ⟨transitions, heq⟩ := hold s hlt
      rw [heq] at hp ⊢
      obtain ⟨transitions', heq'⟩ := hold p ((h'.parentsFirst s p hlt hp).trans hlt)
      rw [heq']
      exact h'.derived s p hlt hp
    · rw [hnew] at hp ⊢
      obtain rfl := Option.some_inj.1 hp
      obtain ⟨transitions, heq⟩ := hold base hb
      rw [heq]
      rfl
  · rcases hcases s hs with hlt | rfl
    · obtain ⟨transitions, heq⟩ := hold s hlt
      rw [heq]
      exact h'.width s hlt
    · rw [hnew]
      rfl

theorem Placed.setLayout (h' : Placed h) (object shape : ℕ) : Placed (h.setLayout object shape) :=
  ⟨h'.parentsFirst, h'.root, h'.derived, h'.width⟩

theorem Laid.placed {attrs : List SlotAttr} (h' : Laid attrs h) : Placed h := by
  induction h' with
  | root =>
    exact ⟨fun _ _ _ hp => (by cases hp), fun _ _ _ => rfl, fun _ _ _ hp => (by cases hp),
      fun _ _ => rfl⟩
  | derive attributes hash _ hb ih => exact ih.derive hb attributes hash
  | allocateObject object _ _ ih => exact ih.setLayout object _

end Derivations

section Tree

variable {h : Heap} {s : ℕ}

theorem layoutTreeWithin_eq (hparent : h.ParentsFirst) {fuel fuel' : ℕ}
    (hs : s < h.numShapes) (hfuel : s < fuel) (hfuel' : s < fuel') :
    h.layoutTreeWithin fuel s = h.layoutTreeWithin fuel' s := by
  refine hparent.within_eq (g := fun s parents => s :: parents.getD [])
    (fun fuel s => ?_) hs hfuel hfuel'
  rw [layoutTreeWithin]
  cases (h.shape s).parentLayout <;> rfl

theorem layoutTree_root (hp : (h.shape s).parentLayout = none) : h.layoutTree s = [s] := by
  rw [layoutTree, layoutTreeWithin, hp]
  rfl

theorem layoutTree_derived (hparent : h.ParentsFirst) {p : ℕ} (hs : s < h.numShapes)
    (hp : (h.shape s).parentLayout = some p) : h.layoutTree s = s :: h.layoutTree p := by
  have hps := hparent s p hs hp
  rw [layoutTree, layoutTreeWithin, hp, Option.elim_some, layoutTree,
    layoutTreeWithin_eq hparent (hps.trans hs) hps (Nat.lt_succ_self p)]

theorem slots_root (hp : (h.shape s).parentLayout = none) :
    h.slots s = (h.shape s).instanceSlotAttrs := by
  rw [slots, slotsWithin, hp]
  rfl

/-- The slots of a shape are those of its parents and its own. -/
theorem slots_eq (hparent : h.ParentsFirst) (hs : s < h.numShapes) :
    h.slots s = h.ancestorSlots s ++ (h.shape s).instanceSlotAttrs := by
  unfold ancestorSlots
  cases hp : (h.shape s).parentLayout with
  | none => exact slots_root hp
  | some p => exact hparent.slots_of_parent hs hp

variable (hplaced : Placed h)

include hplaced

/-- The stored offset is the width of the slots of the parents, in a word. -/
theorem Placed.offset_eq (hs : s < h.numShapes) :
    (h.shape s).instanceSlotOffset = BitVec.ofNat 64 (totalWidth (h.ancestorSlots s)) := by
  induction s using Nat.strong_induction_on with
  | h s ih =>
    cases hp : (h.shape s).parentLayout with
    | none =>
      rw [hplaced.root s hs hp, ancestorSlots, hp]
      rfl
    | some p =>
      have hps := hplaced.parentsFirst s p hs hp
      have hancestors : h.ancestorSlots s = h.slots p := by rw [ancestorSlots, hp]; rfl
      rw [hplaced.derived s p hs hp, ih p hps (hps.trans hs), hplaced.width p (hps.trans hs),
        slotsWidth_eq, ← BitVec.ofNat_add, ← totalWidth_append, hancestors,
        slots_eq hplaced.parentsFirst (hps.trans hs)]

/-- The iterations of all shapes place the slots one after the other. -/
theorem Placed.descriptors_eq (hs : s < h.numShapes) :
    h.descriptors s = slotDescriptors 0 (h.slots s) := by
  induction s using Nat.strong_induction_on with
  | h s ih =>
    have hoffset := hplaced.offset_eq hs
    cases hp : (h.shape s).parentLayout with
    | none =>
      rw [descriptors, layoutTree_root hp, slots_root hp]
      change (h.shape s).instanceSlotDescriptorRange ++ [] = _
      rw [List.append_nil, Shape.instanceSlotDescriptorRange, hplaced.root s hs hp]
    | some p =>
      have hps := hplaced.parentsFirst s p hs hp
      have htree := layoutTree_derived hplaced.parentsFirst hs hp
      have hancestors : h.ancestorSlots s = h.slots p := by rw [ancestorSlots, hp]; rfl
      rw [descriptors, htree, List.reverse_cons, List.flatMap_append, List.flatMap_singleton]
      change h.descriptors p ++ _ = _
      rw [ih p hps (hps.trans hs), slots_eq hplaced.parentsFirst hs, slotDescriptors_append,
        hancestors, slotsWidth_eq, Shape.instanceSlotDescriptorRange, hoffset, hancestors]
      exact congrArg (fun offset => _ ++ slotDescriptors offset _) (BitVec.zero_add _).symm

/-- The parents of a shape are shapes, and so are their parents. -/
theorem Placed.mem_layoutTree (hs : s < h.numShapes) :
    ∀ a ∈ h.layoutTree s, a < h.numShapes ∧
      totalWidth (h.ancestorSlots a) ≤ totalWidth (h.ancestorSlots s) := by
  induction s using Nat.strong_induction_on with
  | h s ih =>
    intro a ha
    cases hp : (h.shape s).parentLayout with
    | none =>
      rw [layoutTree_root hp] at ha
      rw [List.mem_singleton.1 ha]
      exact ⟨hs, le_rfl⟩
    | some p =>
      have hps := hplaced.parentsFirst s p hs hp
      have hancestors : h.ancestorSlots s = h.slots p := by rw [ancestorSlots, hp]; rfl
      rw [layoutTree_derived hplaced.parentsFirst hs hp] at ha
      rcases List.mem_cons.1 ha with rfl | ha
      · exact ⟨hs, le_rfl⟩
      · obtain ⟨hlt, hle⟩ := ih p hps (hps.trans hs) a ha
        refine ⟨hlt, hle.trans ?_⟩
        rw [hancestors, slots_eq hplaced.parentsFirst (hps.trans hs), totalWidth_append]
        exact Nat.le_add_right _ _

omit hplaced

/-- A lookup in one shape finds the first slot with the id. -/
theorem find?_slotDescriptors {offset : BitVec 64} {l : List SlotAttr} {id : BitVec 32}
    {d : SlotDescriptor}
    (hfind : (slotDescriptors offset l).find? (fun e => e.attr.id = id) = some d) :
    d.attr.id = id ∧ ∃ before after, l = before ++ d.attr :: after ∧ (∀ x ∈ before, x.id ≠ id) ∧
      (slotDescriptors offset l)[before.length]? = some d := by
  obtain ⟨hid, before, after, heq, hbefore⟩ := List.find?_eq_some_iff_append.1 hfind
  have hattrs := slotDescriptors_attr offset l
  rw [heq, List.map_append, List.map_cons] at hattrs
  refine ⟨of_decide_eq_true hid, before.map SlotDescriptor.attr, after.map SlotDescriptor.attr,
    hattrs.symm, fun x hx => ?_, ?_⟩
  · obtain ⟨e, he, rfl⟩ := List.mem_map.1 hx
    simpa using hbefore e he
  · rw [heq, List.length_map, List.getElem?_append_right le_rfl, Nat.sub_self]
    rfl

theorem find?_slotDescriptors_none {offset : BitVec 64} {l : List SlotAttr} {id : BitVec 32} :
    (slotDescriptors offset l).find? (fun e => e.attr.id = id) = none ↔ ∀ x ∈ l, x.id ≠ id := by
  rw [List.find?_eq_none]
  constructor
  · intro hnone x hx
    rw [← slotDescriptors_attr offset l] at hx
    obtain ⟨e, he, rfl⟩ := List.mem_map.1 hx
    simpa using hnone e he
  · intro hall e he
    have hx : e.attr ∈ l := by
      rw [← slotDescriptors_attr offset l]
      exact List.mem_map_of_mem he
    simpa using hall e.attr hx

theorem lookupSlot_some {object : ℕ} {id : BitVec 32} {d : SlotDescriptor}
    (hlookup : h.lookupSlot object id = some d) : LookedUp h (h.layout object) id d := by
  unfold lookupSlot at hlookup
  obtain ⟨derived, a, parents, htree, hfind, hderived⟩ := List.findSome?_eq_some_iff.1 hlookup
  obtain ⟨hid, before, after, hattrs, hbefore, hget⟩ := find?_slotDescriptors hfind
  exact ⟨hid, derived, a, parents, before, after, htree,
    fun b hb => find?_slotDescriptors_none.1 (hderived b hb), hattrs, hbefore, hget⟩

theorem lookupSlot_none {object : ℕ} {id : BitVec 32} (hlookup : h.lookupSlot object id = none) :
    ∀ a ∈ h.layoutTree (h.layout object), ∀ x ∈ (h.shape a).instanceSlotAttrs, x.id ≠ id := by
  unfold lookupSlot at hlookup
  exact fun a ha => find?_slotDescriptors_none.1 (List.findSome?_eq_none_iff.1 hlookup a ha)

end Tree

/-- The slots of a shape are laid out one after the other, with the offsets that the shapes store,
exactly if no offset exceeds a word; and they are looked up from the shape on to its parents. -/
theorem laidOut_iff {attrs : List SlotAttr} {h : Heap} (hlaid : Laid attrs h) {s : ℕ}
    (hs : s < h.numShapes) : LaidOut h s ↔ NoWrap h s := by
  have hplaced := hlaid.placed
  have hdescriptors := hplaced.descriptors_eq hs
  have hcontiguous : Contiguous 0 (h.descriptors s) ↔
      (h.slots s ≠ [] → 0 + totalWidth (h.slots s).dropLast < 2 ^ 64) := by
    rw [hdescriptors]
    exact contiguous_iff 0 (h.slots s)
  have hself : s ∈ h.layoutTree s := List.mem_cons_self
  constructor
  · rintro ⟨hoffset, hcontig, -, -, -⟩
    refine ⟨?_, ?_⟩
    · rw [← hoffset s hself]
      exact BitVec.isLt _
    · by_cases hnil : h.slots s = []
      · rw [hnil]
        decide
      · have := hcontiguous.1 hcontig hnil
        omega
  · rintro ⟨hancestors, hslots⟩
    have hcontig := hcontiguous.2 fun _ => by omega
    refine ⟨fun a ha => ?_, hcontig, hcontig.disjoint, ?_, ?_⟩
    · obtain ⟨hlt, hle⟩ := hplaced.mem_layoutTree hs a ha
      rw [hplaced.offset_eq hlt, BitVec.toNat_ofNat, Nat.mod_eq_of_lt (hle.trans_lt hancestors)]
    · rintro object rfl id d hlookup
      exact lookupSlot_some hlookup
    · rintro object rfl id hlookup
      exact lookupSlot_none hlookup

/-- A root layout with a byte and a double, and a shape that adds an integer. -/
theorem laidOut_iff_twoShapes :
    LaidOut ((rootHeap [slot 1 .int8, slot 2 .float64]).deriveObjectLayout 0 [slot 3 .int32] 7).1 1 :=
  (laidOut_iff (.derive _ _ .root Nat.one_pos) (by decide)).2 ⟨by decide, by decide⟩

/-- Behind a pointer the slot of an integer begins at the last byte of a word, and the next slot
at byte 7, which is a byte of the pointer. -/
theorem laidOut_pointer_fails :
    ¬ LaidOut (rootHeap [slot 1 .ptr, slot 2 .int64, slot 3 .int8]) 0 := by
  intro hlaid
  have hcontiguous := hlaid.contiguous.2.2.1
  exact absurd hcontiguous (by decide)

end Heap

end OMR.Om
