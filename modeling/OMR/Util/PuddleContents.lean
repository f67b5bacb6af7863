import Mathlib.Tactic
import OMR.Lib.Extent
import OMR.Util.PoolLayout

/-!
# The slots of a puddle

Which slots of a puddle are free is stored three times: in the chain of free slots, in
the bitmap and, as a number, in the counter. `Described` says that the three agree. A new
puddle is described, and so is one from which a slot has been taken or to which one has
been returned.
-/

namespace OMR.Util.Pool

open OMR.Lib

namespace PuddleShape

variable (shape : PuddleShape)

/-- The bytes of a puddle. -/
def block (puddle : ℕ) : Extent := ⟨puddle, shape.puddleAllocSize⟩

/-- The bytes of an element. -/
def bytesOfElement (element : ℕ) : Extent := ⟨element, shape.elementSize⟩

/-- The slots of a puddle that hold elements. -/
def elementSlots (puddle : ℕ) : List ℕ :=
  (List.range shape.elementsPerPuddle).filter
    fun slot => !shape.elementIsHole (shape.elementAddress puddle slot)

/-- The chain, the bitmap and the counter of a puddle describe one set of free slots. -/
structure Described (puddle : ℕ) (contents : J9PoolPuddle) : Prop where
  nodup : contents.freeChain.Nodup
  mem_chain : ∀ slot, slot ∈ contents.freeChain ↔
    slot ∈ shape.elementSlots puddle ∧ contents.slotFree slot = true
  used_slot : ∀ slot < shape.elementsPerPuddle, contents.slotFree slot = false →
    slot ∈ shape.elementSlots puddle
  count : contents.usedElements + contents.freeChain.length = (shape.elementSlots puddle).length

/-- The element at an address has been handed out by the puddle. -/
def Holds (puddle : ℕ) (contents : J9PoolPuddle) (element : ℕ) : Prop :=
  ∃ slot < shape.elementsPerPuddle, contents.slotFree slot = false ∧
    shape.elementAddress puddle slot = element

variable {shape}

theorem mem_elementSlots {puddle slot : ℕ} : slot ∈ shape.elementSlots puddle ↔
    slot < shape.elementsPerPuddle ∧
      shape.elementIsHole (shape.elementAddress puddle slot) = false := by
  simp [elementSlots]

theorem nodup_elementSlots (puddle : ℕ) : (shape.elementSlots puddle).Nodup :=
  List.nodup_range.filter _

namespace WellShaped

variable (h : shape.WellShaped)

include h

theorem firstElementAddress_dvd (puddle : ℕ) : shape.alignment ∣ shape.firstElementAddress puddle ∧
    (shape.usesHoles = true →
      shape.elementSize * holeFrequency ∣ shape.firstElementAddress puddle) := by
  have hsector : 0 < shape.elementSize * holeFrequency :=
    Nat.mul_pos h.elementSize_pos (by decide)
  unfold firstElementAddress
  dsimp only
  by_cases hh : shape.usesHoles = true
  · rw [if_pos hh]
    have := dvd_roundTo (puddle + sizeofPuddle + (shape.elementsPerPuddle + 31) / 32 * 4) hsector
    exact ⟨(h.alignment_dvd.mul_right _).trans this, fun _ => this⟩
  · rw [if_neg hh]
    exact ⟨dvd_roundTo _ h.alignment_pos, fun hh' => absurd hh' hh⟩

theorem elementAddress_dvd (puddle slot : ℕ) :
    shape.alignment ∣ shape.elementAddress puddle slot :=
  (h.firstElementAddress_dvd puddle).1.add (h.alignment_dvd.mul_left slot)

/-- With holes, every sixteenth slot is one. -/
theorem elementIsHole_iff (puddle slot : ℕ) :
    shape.elementIsHole (shape.elementAddress puddle slot) = true ↔
      shape.usesHoles = true ∧ holeFrequency ∣ slot := by
  have hfirst := (h.firstElementAddress_dvd puddle).2
  unfold elementIsHole
  simp only [Bool.and_eq_true, beq_iff_eq, and_congr_right_iff]
  intro hh
  rw [← Nat.dvd_iff_mod_eq_zero, elementAddress, ← Nat.dvd_add_iff_right (hfirst hh),
    Nat.mul_comm slot, Nat.mul_dvd_mul_iff_left h.elementSize_pos]

/-- The chain of a new puddle has exactly its element slots. -/
theorem initialChain_spec (puddle : ℕ) : (shape.initialChain puddle).Nodup ∧
    ∀ slot, slot ∈ shape.initialChain puddle ↔ slot ∈ shape.elementSlots puddle := by
  have hpos := h.elementsPerPuddle_pos
  have hinj : Function.Injective fun k => (if shape.usesHoles then 1 else 0) + 1 + k :=
    fun a b hab => by simpa using hab
  constructor
  · refine List.nodup_cons.2 ⟨?_, (List.nodup_range.map hinj).filter _⟩
    simp only [List.mem_filter, List.mem_map, not_and]
    rintro ⟨k, -, hk⟩
    omega
  · intro slot
    have hhole : shape.elementIsHole (shape.elementAddress puddle slot) = false ↔
        ¬(shape.usesHoles = true ∧ holeFrequency ∣ slot) := by
      rw [← h.elementIsHole_iff puddle slot, Bool.not_eq_true]
    have hmem : slot ∈ (List.range (shape.elementsPerPuddle - 1)).map
          ((if shape.usesHoles then 1 else 0) + 1 + ·) ↔
        (if shape.usesHoles then 1 else 0) < slot ∧
          slot < (if shape.usesHoles then 1 else 0) + shape.elementsPerPuddle := by
      simp only [List.mem_map, List.mem_range]
      exact ⟨fun ⟨k, hk, hs⟩ => by omega,
        fun hs => ⟨slot - 1 - if shape.usesHoles then 1 else 0, by omega, by omega⟩⟩
    have hsectors := h.sectors
    unfold initialChain
    rw [List.mem_cons, List.mem_filter, hmem, mem_elementSlots, Bool.not_eq_true', hhole]
    unfold holeFrequency at *
    cases hh : shape.usesHoles with
    | true =>
      have := hsectors hh
      simp only [if_true, true_and]
      omega
    | false =>
      simp only [Bool.false_eq_true, if_false, false_and, not_false_eq_true, and_true]
      omega

theorem length_initialChain (puddle : ℕ) :
    (shape.initialChain puddle).length = (shape.elementSlots puddle).length := by
  obtain ⟨hnodup, hmem⟩ := h.initialChain_spec puddle
  exact ((List.perm_ext_iff_of_nodup hnodup (nodup_elementSlots puddle)).2 hmem).length_eq

/-- A pool with one element slot in a puddle has one slot in a puddle. -/
theorem one_slot (puddle : ℕ) (hone : (shape.elementSlots puddle).length = 1) :
    shape.elementsPerPuddle = 1 := by
  by_contra hne
  have hpos := h.elementsPerPuddle_pos
  have hslots : ∀ a b, a ≠ b → a ∈ shape.elementSlots puddle → b ∉ shape.elementSlots puddle := by
    intro a b hab ha hb
    obtain ⟨c, hc⟩ := List.length_eq_one_iff.1 hone
    rw [hc, List.mem_singleton] at ha hb
    exact hab (ha.trans hb.symm)
  have hhole : ∀ slot, shape.elementIsHole (shape.elementAddress puddle slot) = false ↔
      ¬(shape.usesHoles = true ∧ holeFrequency ∣ slot) := by
    intro slot
    rw [← h.elementIsHole_iff puddle slot, Bool.not_eq_true]
  have hsectors := h.sectors
  simp only [mem_elementSlots, hhole] at hslots
  unfold holeFrequency at hslots hsectors
  cases hh : shape.usesHoles with
  | true =>
    have := hsectors hh
    exact hslots 1 2 (by decide) (by omega) (by omega)
  | false =>
    simp only [hh, Bool.false_eq_true, false_and, not_false_eq_true, and_true] at hslots
    exact hslots 0 1 (by decide) hpos (by omega)

/-- A slot lies in the bytes of its puddle. -/
theorem element_within {puddle slot : ℕ} (hp : mallocAlignment ∣ puddle)
    (hs : slot < shape.elementsPerPuddle) :
    (shape.bytesOfElement (shape.elementAddress puddle slot)).Within (shape.block puddle) := by
  have hroom := h.roomy puddle hp
  have hstep : (slot + 1) * shape.elementSize ≤ shape.elementsPerPuddle * shape.elementSize :=
    Nat.mul_le_mul_right _ hs
  have hfirst : puddle ≤ shape.firstElementAddress puddle := by
    have hsector : 0 < shape.elementSize * holeFrequency :=
      Nat.mul_pos h.elementSize_pos (by decide)
    unfold firstElementAddress
    dsimp only
    split
    · exact le_trans (by omega) (le_roundTo _ hsector)
    · exact le_trans (by omega) (le_roundTo _ h.alignment_pos)
  rw [Nat.add_mul, Nat.one_mul] at hstep
  constructor <;> simp only [bytesOfElement, block, elementAddress, Extent.top] <;> omega

theorem getElementPuddleSlot_eq (puddle : ℕ) {slot : ℕ} (hs : slot < shape.elementsPerPuddle) :
    shape.getElementPuddleSlot puddle (shape.elementAddress puddle slot) = some slot := by
  have hpos := h.elementSize_pos
  unfold getElementPuddleSlot elementAddress
  simp only [Nat.add_sub_cancel_left, Nat.mul_mod_left, Nat.mul_div_cancel _ hpos]
  rw [if_pos ⟨Nat.le_add_right _ _, trivial, hs⟩]

end WellShaped

theorem getElementPuddleSlot_some {puddle element slot : ℕ}
    (hs : shape.getElementPuddleSlot puddle element = some slot) :
    slot < shape.elementsPerPuddle ∧ shape.elementAddress puddle slot = element := by
  unfold getElementPuddleSlot at hs
  dsimp only at hs
  split at hs
  · rename_i hc
    cases hs
    refine ⟨hc.2.2, ?_⟩
    have := Nat.div_mul_cancel (Nat.dvd_of_mod_eq_zero hc.2.1)
    unfold elementAddress
    omega
  · cases hs

/-- Slots of one puddle are disjoint. -/
theorem apart_slots {puddle s t : ℕ} (hne : s ≠ t) :
    (shape.bytesOfElement (shape.elementAddress puddle s)).Apart
      (shape.bytesOfElement (shape.elementAddress puddle t)) := by
  have key : ∀ {s t : ℕ}, s < t → s * shape.elementSize + shape.elementSize ≤
      t * shape.elementSize := by
    intro s t hst
    have := Nat.mul_le_mul_right shape.elementSize (Nat.succ_le_of_lt hst)
    rwa [Nat.succ_mul] at this
  obtain hlt | hlt := lt_or_gt_of_ne hne
  · have := key hlt
    exact Or.inl (by simp only [bytesOfElement, elementAddress, Extent.top]; omega)
  · have := key hlt
    exact Or.inr (by simp only [bytesOfElement, elementAddress, Extent.top]; omega)

theorem elementAddress_inj (h : shape.WellShaped) {puddle s t : ℕ}
    (heq : shape.elementAddress puddle s = shape.elementAddress puddle t) : s = t := by
  unfold elementAddress at heq
  exact Nat.eq_of_mul_eq_mul_right h.elementSize_pos (Nat.add_left_cancel heq)

theorem described_init (h : shape.WellShaped) (puddle : ℕ) (prev : Option ℕ) :
    shape.Described puddle (shape.puddleInit puddle prev) := by
  obtain ⟨hnodup, hmem⟩ := h.initialChain_spec puddle
  refine ⟨hnodup, fun slot => ?_, fun slot _ hs => ?_, ?_⟩
  · exact (hmem slot).trans (and_iff_left rfl).symm
  · cases hs
  · exact (Nat.zero_add _).trans (h.length_initialChain puddle)

theorem not_holds_init (puddle element : ℕ) (prev : Option ℕ) :
    ¬shape.Holds puddle (shape.puddleInit puddle prev) element := by
  rintro ⟨slot, -, hs, -⟩
  cases hs

namespace Described

variable {puddle slot : ℕ} {contents : J9PoolPuddle} (h : shape.Described puddle contents)

include h

/-- A slot of the chain is an element slot, and free. -/
theorem of_mem_chain (hs : slot ∈ contents.freeChain) :
    slot < shape.elementsPerPuddle ∧ contents.slotFree slot = true :=
  ⟨(mem_elementSlots.1 ((h.mem_chain slot).1 hs).1).1, ((h.mem_chain slot).1 hs).2⟩

theorem takeSlot {rest : List ℕ} (hc : contents.freeChain = slot :: rest) :
    shape.Described puddle (contents.takeSlot slot rest) := by
  have hnodup := h.nodup
  rw [hc, List.nodup_cons] at hnodup
  have hslot : slot ∈ shape.elementSlots puddle :=
    ((h.mem_chain slot).1 (hc ▸ List.mem_cons_self ..)).1
  refine ⟨hnodup.2, fun t => ?_, fun t ht hfree => ?_, ?_⟩
  · by_cases hts : t = slot
    · subst hts
      simp [J9PoolPuddle.takeSlot, hnodup.1]
    · have := h.mem_chain t
      rw [hc, List.mem_cons, or_iff_right hts] at this
      simpa [J9PoolPuddle.takeSlot, Function.update_of_ne hts] using this
  · by_cases hts : t = slot
    · exact hts ▸ hslot
    · exact h.used_slot t ht (by simpa [J9PoolPuddle.takeSlot, Function.update_of_ne hts] using hfree)
  · have := h.count
    rw [hc, List.length_cons] at this
    simp only [J9PoolPuddle.takeSlot]
    omega

/-- A used slot is no slot of the chain, and there is a count for it. -/
theorem chain_lt (hs : slot < shape.elementsPerPuddle) (hused : contents.slotFree slot = false) :
    slot ∉ contents.freeChain ∧ 0 < contents.usedElements := by
  have hnot : slot ∉ contents.freeChain := by
    intro hmem
    have := (h.of_mem_chain hmem).2
    rw [hused] at this
    cases this
  refine ⟨hnot, ?_⟩
  have hsub : (slot :: contents.freeChain).Subperm (shape.elementSlots puddle) := by
    apply (List.nodup_cons.2 ⟨hnot, h.nodup⟩).subperm
    intro t ht
    obtain rfl | ht := List.mem_cons.1 ht
    · exact h.used_slot t hs hused
    · exact ((h.mem_chain t).1 ht).1
  have hlen := hsub.length_le
  have := h.count
  rw [List.length_cons] at hlen
  omega

theorem freeSlot (hs : slot < shape.elementsPerPuddle) (hused : contents.slotFree slot = false) :
    shape.Described puddle (contents.freeSlot slot) := by
  obtain ⟨hnot, hpos⟩ := h.chain_lt hs hused
  refine ⟨List.nodup_cons.2 ⟨hnot, h.nodup⟩, fun t => ?_, fun t ht hfree => ?_, ?_⟩
  · by_cases hts : t = slot
    · subst hts
      simp [J9PoolPuddle.freeSlot, h.used_slot t hs hused]
    · have := h.mem_chain t
      simpa [J9PoolPuddle.freeSlot, Function.update_of_ne hts, hts] using this
  · by_cases hts : t = slot
    · subst hts
      simp [J9PoolPuddle.freeSlot] at hfree
    · exact h.used_slot t ht (by simpa [J9PoolPuddle.freeSlot, Function.update_of_ne hts] using hfree)
  · have := h.count
    simp only [J9PoolPuddle.freeSlot, List.length_cons]
    omega

/-- A puddle without used elements holds none. -/
theorem not_holds (hzero : contents.usedElements = 0) (element : ℕ) :
    ¬shape.Holds puddle contents element := by
  rintro ⟨slot, hs, hused, -⟩
  have := (h.chain_lt hs hused).2
  omega

end Described

theorem holds_takeSlot {puddle slot element : ℕ} {contents : J9PoolPuddle} {rest : List ℕ}
    (hs : slot < shape.elementsPerPuddle) :
    shape.Holds puddle (contents.takeSlot slot rest) element ↔
      shape.elementAddress puddle slot = element ∨ shape.Holds puddle contents element := by
  constructor
  · rintro ⟨t, ht, hused, he⟩
    by_cases hts : t = slot
    · exact Or.inl (hts ▸ he)
    · refine Or.inr ⟨t, ht, ?_, he⟩
      simpa [J9PoolPuddle.takeSlot, Function.update_of_ne hts] using hused
  · rintro (he | ⟨t, ht, hused, he⟩)
    · exact ⟨slot, hs, by simp [J9PoolPuddle.takeSlot], he⟩
    · refine ⟨t, ht, ?_, he⟩
      by_cases hts : t = slot
      · simp [J9PoolPuddle.takeSlot, hts]
      · simpa [J9PoolPuddle.takeSlot, Function.update_of_ne hts] using hused

theorem holds_freeSlot (h : shape.WellShaped) {puddle slot element : ℕ} {contents : J9PoolPuddle} :
    shape.Holds puddle (contents.freeSlot slot) element ↔
      element ≠ shape.elementAddress puddle slot ∧ shape.Holds puddle contents element := by
  constructor
  · rintro ⟨t, ht, hused, he⟩
    by_cases hts : t = slot
    · simp [J9PoolPuddle.freeSlot, hts] at hused
    · refine ⟨fun heq => hts (elementAddress_inj h (he.trans heq)), t, ht, ?_, he⟩
      simpa [J9PoolPuddle.freeSlot, Function.update_of_ne hts] using hused
  · rintro ⟨hne, t, ht, hused, he⟩
    have hts : t ≠ slot := by
      rintro rfl
      exact hne he.symm
    refine ⟨t, ht, ?_, he⟩
    simpa [J9PoolPuddle.freeSlot, Function.update_of_ne hts] using hused

end PuddleShape

end OMR.Util.Pool
