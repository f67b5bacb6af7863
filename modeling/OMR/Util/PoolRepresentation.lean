import Mathlib.Tactic
import OMR.Lib.LinkedList
import OMR.Util.PuddleContents

/-!
# The representation invariant of `J9Pool`

`Represents` says that the puddles of a pool, their counters and the list of available
puddles describe the elements that the clients of the pool hold; `Linked` says what holds
of the back links of the available puddles. Each operation keeps both, with one
exception: the removal of the only element of the only puddle of a pool that has one
slot in a puddle.
-/

namespace OMR.Util.Pool

open OMR.Lib

namespace J9Pool

variable (pool : J9Pool)

/-- The pool describes the elements that are live. -/
structure Represents (live : List ℕ) : Prop where
  shape : pool.WellShaped
  puddles_ne : pool.puddles ≠ []
  puddle_dvd : ∀ puddle ∈ pool.puddles, mallocAlignment ∣ puddle
  apart : pool.puddles.Pairwise fun p q => (pool.block p).Apart (pool.block q)
  described : ∀ puddle ∈ pool.puddles, pool.Described puddle (pool.puddleAt puddle)
  numElements_eq : pool.numElements =
    (pool.puddles.map fun puddle => (pool.puddleAt puddle).usedElements).sum
  live_nodup : live.Nodup
  mem_live : ∀ element, element ∈ live ↔
    ∃ puddle ∈ pool.puddles, pool.Holds puddle (pool.puddleAt puddle) element
  available_nodup : pool.available.Nodup
  mem_available : ∀ puddle, puddle ∈ pool.available ↔
    puddle ∈ pool.puddles ∧ (pool.puddleAt puddle).freeChain ≠ []

/-- The link of each puddle to the previous available one. -/
def prevAvailable (puddle : ℕ) : Option ℕ := (pool.puddleAt puddle).prevAvailablePuddle

/-- The back links that the code goes by: the first available puddle and those that are
not available have none, and a pool that frees puddles keeps them all. -/
structure Linked : Prop where
  head : ∀ puddle, pool.available.head? = some puddle → pool.prevAvailable puddle = none
  backLinked : pool.neverFreePuddles = false → BackLinked pool.prevAvailable none pool.available
  unlinked : ∀ puddle ∈ pool.puddles, puddle ∉ pool.available → pool.prevAvailable puddle = none

variable {pool}

theorem Represents.puddles_nodup {live : List ℕ} (h : pool.Represents live) :
    pool.puddles.Nodup := by
  apply h.apart.imp
  rintro p q hap rfl
  have hpos := Nat.mul_pos h.shape.elementsPerPuddle_pos h.shape.elementSize_pos
  have hroom := h.shape.roomy 0 (Nat.dvd_zero _)
  simp only [PuddleShape.block, Extent.Apart, Extent.top] at hap
  omega

/-- Slots of different puddles are disjoint. -/
theorem Represents.apart_elements {live : List ℕ} (h : pool.Represents live) {p q s t : ℕ}
    (hp : p ∈ pool.puddles) (hq : q ∈ pool.puddles) (hne : p ≠ q)
    (hs : s < pool.elementsPerPuddle) (ht : t < pool.elementsPerPuddle) :
    (pool.bytesOfElement (pool.elementAddress p s)).Apart
      (pool.bytesOfElement (pool.elementAddress q t)) := by
  have : Std.Symm fun p q => (pool.block p).Apart (pool.block q) := ⟨fun _ _ hab => hab.symm⟩
  have hap := h.apart.forall hp hq hne
  exact hap.mono (h.shape.element_within (h.puddle_dvd p hp) hs)
    (h.shape.element_within (h.puddle_dvd q hq) ht)

/-- A slot belongs to one puddle. -/
theorem Represents.puddle_unique {live : List ℕ} (h : pool.Represents live) {p q s t : ℕ}
    (hp : p ∈ pool.puddles) (hq : q ∈ pool.puddles)
    (hs : s < pool.elementsPerPuddle) (ht : t < pool.elementsPerPuddle)
    (heq : pool.elementAddress p s = pool.elementAddress q t) : p = q := by
  by_contra hne
  have hap := h.apart_elements hp hq hne hs ht
  have hpos := h.shape.elementSize_pos
  rw [heq] at hap
  simp only [PuddleShape.bytesOfElement, Extent.Apart, Extent.top] at hap
  omega

/-- The live elements are pairwise disjoint. -/
theorem Represents.live_apart {live : List ℕ} (h : pool.Represents live) {a b : ℕ}
    (ha : a ∈ live) (hb : b ∈ live) (hne : a ≠ b) :
    (pool.bytesOfElement a).Apart (pool.bytesOfElement b) := by
  obtain ⟨p, hp, s, hs, -, rfl⟩ := (h.mem_live a).1 ha
  obtain ⟨q, hq, t, ht, -, rfl⟩ := (h.mem_live b).1 hb
  by_cases hpq : p = q
  · subst hpq
    exact PuddleShape.apart_slots fun hst => hne (hst ▸ rfl)
  · exact h.apart_elements hp hq hpq hs ht

/-- Two puddles agree but for the back link. -/
structure SameSlots (contents contents' : J9PoolPuddle) : Prop where
  usedElements : contents'.usedElements = contents.usedElements
  slotFree : contents'.slotFree = contents.slotFree
  freeChain : contents'.freeChain = contents.freeChain

namespace SameSlots

variable {shape : PuddleShape} {puddle : ℕ} {contents contents' : J9PoolPuddle}

theorem refl (contents : J9PoolPuddle) : SameSlots contents contents := ⟨rfl, rfl, rfl⟩

theorem trans {contents'' : J9PoolPuddle} (h : SameSlots contents contents')
    (h' : SameSlots contents' contents'') : SameSlots contents contents'' :=
  ⟨h'.usedElements.trans h.usedElements, h'.slotFree.trans h.slotFree,
    h'.freeChain.trans h.freeChain⟩

theorem described (h : SameSlots contents contents') (hd : shape.Described puddle contents) :
    shape.Described puddle contents' := by
  refine ⟨?_, ?_, ?_, ?_⟩ <;> simp only [h.usedElements, h.slotFree, h.freeChain]
  · exact hd.nodup
  · exact hd.mem_chain
  · exact hd.used_slot
  · exact hd.count

theorem holds_iff (h : SameSlots contents contents') (element : ℕ) :
    shape.Holds puddle contents' element ↔ shape.Holds puddle contents element := by
  unfold PuddleShape.Holds
  rw [h.slotFree]

end SameSlots

/-- Only the slots of one puddle differ between two pools; that puddle has `contents`. -/
structure Changed (pool pool' : J9Pool) (puddle : ℕ) (contents : J9PoolPuddle) : Prop where
  shape : pool'.toPuddleShape = pool.toPuddleShape
  self : SameSlots contents (pool'.puddleAt puddle)
  other : ∀ q, q ≠ puddle → SameSlots (pool.puddleAt q) (pool'.puddleAt q)

/-- Back links may change on top of a change. -/
theorem Changed.sameSlots {pool' pool'' : J9Pool} {puddle : ℕ} {contents : J9PoolPuddle}
    (hc : Changed pool pool' puddle contents) (hshape : pool''.toPuddleShape = pool'.toPuddleShape)
    (hs : ∀ q, SameSlots (pool'.puddleAt q) (pool''.puddleAt q)) :
    Changed pool pool'' puddle contents :=
  ⟨hshape.trans hc.shape, hc.self.trans (hs puddle), fun q hq => (hc.other q hq).trans (hs q)⟩

section Changed

variable {pool' : J9Pool} {live : List ℕ} {puddle : ℕ} {contents : J9PoolPuddle}

/-- The elements that the other puddles hold. -/
def HeldElsewhere (pool : J9Pool) (puddle element : ℕ) : Prop :=
  ∃ q ∈ pool.puddles, q ≠ puddle ∧ pool.Holds q (pool.puddleAt q) element

theorem Represents.mem_live_iff (h : pool.Represents live) (hp : puddle ∈ pool.puddles)
    (element : ℕ) : element ∈ live ↔
      pool.Holds puddle (pool.puddleAt puddle) element ∨ pool.HeldElsewhere puddle element := by
  rw [h.mem_live]
  constructor
  · rintro ⟨q, hq, hh⟩
    by_cases hqp : q = puddle
    · exact Or.inl (hqp ▸ hh)
    · exact Or.inr ⟨q, hq, hqp, hh⟩
  · rintro (hh | ⟨q, hq, -, hh⟩)
    · exact ⟨puddle, hp, hh⟩
    · exact ⟨q, hq, hh⟩

theorem Represents.not_heldElsewhere (h : pool.Represents live) (hp : puddle ∈ pool.puddles)
    {slot : ℕ} (hs : slot < pool.elementsPerPuddle) :
    ¬pool.HeldElsewhere puddle (pool.elementAddress puddle slot) := by
  rintro ⟨q, hq, hne, t, ht, -, heq⟩
  exact hne (h.puddle_unique hq hp ht hs heq)

/-- The counters of the other puddles. -/
theorem Represents.usedElements_add (h : pool.Represents live) (hp : puddle ∈ pool.puddles) :
    (pool.puddleAt puddle).usedElements +
      ((pool.puddles.erase puddle).map fun q => (pool.puddleAt q).usedElements).sum =
        pool.numElements := by
  rw [h.numElements_eq]
  exact List.sum_map_erase (fun q => (pool.puddleAt q).usedElements) hp

theorem Changed.usedElements_erase (hc : Changed pool pool' puddle contents)
    (hn : pool.puddles.Nodup) :
    ((pool.puddles.erase puddle).map fun q => (pool'.puddleAt q).usedElements) =
      (pool.puddles.erase puddle).map fun q => (pool.puddleAt q).usedElements := by
  apply List.map_congr_left
  intro q hq
  exact (hc.other q (hn.mem_erase_iff.1 hq).1).usedElements

/-- One puddle changes: the pool describes the elements that puddle now holds and those
of the others. -/
theorem Represents.change (h : pool.Represents live) (hp : puddle ∈ pool.puddles)
    (hc : Changed pool pool' puddle contents) (hpuddles : pool'.puddles = pool.puddles)
    (hd : pool.Described puddle contents)
    (hnum : pool'.numElements + (pool.puddleAt puddle).usedElements =
      pool.numElements + contents.usedElements)
    {live' : List ℕ} (hnodup : live'.Nodup)
    (hlive : ∀ e, e ∈ live' ↔ pool.Holds puddle contents e ∨ pool.HeldElsewhere puddle e)
    (hanodup : pool'.available.Nodup)
    (havail : ∀ q, q ∈ pool'.available ↔
      if q = puddle then contents.freeChain ≠ [] else q ∈ pool.available) :
    pool'.Represents live' := by
  refine ⟨hc.shape ▸ h.shape, ?_, ?_, ?_, ?_, ?_, hnodup, ?_, hanodup, ?_⟩
  · exact hpuddles ▸ h.puddles_ne
  · exact hpuddles ▸ h.puddle_dvd
  · rw [hpuddles, hc.shape]
    exact h.apart
  · intro q hq
    rw [hc.shape]
    by_cases hqp : q = puddle
    · exact hqp ▸ hc.self.described hd
    · exact (hc.other q hqp).described (h.described q (hpuddles ▸ hq))
  · have hsum := List.sum_map_erase (fun q => (pool'.puddleAt q).usedElements) hp
    have hold := h.usedElements_add hp
    rw [hc.usedElements_erase h.puddles_nodup, hc.self.usedElements] at hsum
    rw [hpuddles, ← hsum]
    omega
  · intro e
    rw [hlive, hpuddles, hc.shape]
    constructor
    · rintro (hh | ⟨q, hq, hqp, hh⟩)
      · exact ⟨puddle, hp, (hc.self.holds_iff e).2 hh⟩
      · exact ⟨q, hq, ((hc.other q hqp).holds_iff e).2 hh⟩
    · rintro ⟨q, hq, hh⟩
      by_cases hqp : q = puddle
      · subst hqp
        exact Or.inl ((hc.self.holds_iff e).1 hh)
      · exact Or.inr ⟨q, hq, hqp, ((hc.other q hqp).holds_iff e).1 hh⟩
  · intro q
    rw [havail, hpuddles]
    by_cases hqp : q = puddle
    · subst hqp
      rw [if_pos rfl, hc.self.freeChain]
      exact (and_iff_right hp).symm
    · rw [if_neg hqp, (hc.other q hqp).freeChain]
      exact h.mem_available q

/-- One puddle changes so that it holds no element, and leaves the pool. -/
theorem Represents.drop (h : pool.Represents live) (hp : puddle ∈ pool.puddles)
    (hc : Changed pool pool' puddle contents) (hpuddles : pool'.puddles = pool.puddles.erase puddle)
    (hmore : pool.puddles ≠ [puddle])
    (hnum : pool'.numElements + (pool.puddleAt puddle).usedElements = pool.numElements)
    {live' : List ℕ} (hnodup : live'.Nodup)
    (hlive : ∀ e, e ∈ live' ↔ pool.HeldElsewhere puddle e)
    (havail : pool'.available = pool.available.erase puddle) : pool'.Represents live' := by
  have hmem : ∀ q, q ∈ pool'.puddles ↔ q ≠ puddle ∧ q ∈ pool.puddles := by
    intro q
    rw [hpuddles, h.puddles_nodup.mem_erase_iff]
  refine ⟨hc.shape ▸ h.shape, ?_, ?_, ?_, ?_, ?_, hnodup, ?_, ?_, ?_⟩
  · intro hnil
    have hlen := List.length_erase_of_mem hp
    rw [← hpuddles, hnil, List.length_nil] at hlen
    obtain ⟨q, hq⟩ := List.length_eq_one_iff.1 (show pool.puddles.length = 1 by
      have := List.length_pos_of_mem hp
      omega)
    rw [hq, List.mem_singleton] at hp
    exact hmore (hp ▸ hq)
  · exact fun q hq => h.puddle_dvd q ((hmem q).1 hq).2
  · rw [hpuddles, hc.shape]
    exact h.apart.sublist List.erase_sublist
  · intro q hq
    rw [hc.shape]
    exact (hc.other q ((hmem q).1 hq).1).described (h.described q ((hmem q).1 hq).2)
  · have hold := h.usedElements_add hp
    rw [← hc.usedElements_erase h.puddles_nodup] at hold
    rw [hpuddles]
    omega
  · intro e
    rw [hlive, hc.shape]
    constructor
    · rintro ⟨q, hq, hne, hh⟩
      exact ⟨q, (hmem q).2 ⟨hne, hq⟩, ((hc.other q hne).holds_iff e).2 hh⟩
    · rintro ⟨q, hq, hh⟩
      obtain ⟨hne, hq⟩ := (hmem q).1 hq
      exact ⟨q, hq, hne, ((hc.other q hne).holds_iff e).1 hh⟩
  · exact havail ▸ h.available_nodup.erase puddle
  · intro q
    rw [havail, h.available_nodup.mem_erase_iff, h.mem_available, hmem, and_assoc]
    refine and_congr_right fun hne => ?_
    rw [(hc.other q hne).freeChain]

end Changed

section Slots

variable (pool) (puddle slot : ℕ) (rest : List ℕ)

theorem changed_takeSlot : Changed pool (pool.takeSlot puddle slot rest) puddle
    ((pool.puddleAt puddle).takeSlot slot rest) := by
  refine ⟨rfl, ?_, fun q hq => ?_⟩
  · simpa [takeSlot, setPuddle] using SameSlots.refl _
  · simpa [takeSlot, setPuddle, Function.update_of_ne hq] using SameSlots.refl (pool.puddleAt q)

theorem changed_freeSlot : Changed pool (pool.freeSlot puddle slot) puddle
    ((pool.puddleAt puddle).freeSlot slot) := by
  refine ⟨rfl, ?_, fun q hq => ?_⟩
  · simpa [freeSlot, setPuddle] using SameSlots.refl _
  · simpa [freeSlot, setPuddle, Function.update_of_ne hq] using SameSlots.refl (pool.puddleAt q)

@[simp] theorem prevAvailable_takeSlot :
    (pool.takeSlot puddle slot rest).prevAvailable = pool.prevAvailable := by
  funext q
  by_cases hq : q = puddle
  · subst hq
    simp [prevAvailable, takeSlot, setPuddle, J9PoolPuddle.takeSlot]
  · simp [prevAvailable, takeSlot, setPuddle, Function.update_of_ne hq]

@[simp] theorem prevAvailable_freeSlot :
    (pool.freeSlot puddle slot).prevAvailable = pool.prevAvailable := by
  funext q
  by_cases hq : q = puddle
  · subst hq
    simp [prevAvailable, freeSlot, setPuddle, J9PoolPuddle.freeSlot]
  · simp [prevAvailable, freeSlot, setPuddle, Function.update_of_ne hq]

end Slots

end J9Pool

end OMR.Util.Pool
