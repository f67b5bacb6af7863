import Mathlib.Tactic
import OMR.Lib.LinkedList
import OMR.Util.PoolRepresentation

/-!
# The operations of `J9Pool` keep the invariant
-/

namespace OMR.Util.Pool

open OMR.Lib

namespace J9Pool

variable {pool : J9Pool} {live : List ℕ}

section Links

variable (pool) (puddle : ℕ) (prev : Option ℕ) (list : List ℕ)

theorem sameSlots_setPrev (q : ℕ) :
    SameSlots (pool.puddleAt q) ((pool.setPrev puddle prev).puddleAt q) := by
  by_cases hq : q = puddle
  · subst hq
    simpa [setPrev, setPuddle] using ⟨rfl, rfl, rfl⟩
  · simpa [setPrev, setPuddle, Function.update_of_ne hq] using SameSlots.refl _

theorem prevAvailable_setPrev :
    (pool.setPrev puddle prev).prevAvailable =
      Function.update pool.prevAvailable puddle prev := by
  funext q
  by_cases hq : q = puddle
  · subst hq
    simp [prevAvailable, setPrev, setPuddle]
  · simp [prevAvailable, setPrev, setPuddle, Function.update_of_ne hq]

@[simp] theorem setPrevOfHead_toPuddleShape :
    (pool.setPrevOfHead list prev).toPuddleShape = pool.toPuddleShape := by
  cases list <;> rfl

@[simp] theorem setPrevOfHead_neverFreePuddles :
    (pool.setPrevOfHead list prev).neverFreePuddles = pool.neverFreePuddles := by
  cases list <;> rfl

@[simp] theorem setPrevOfHead_puddles :
    (pool.setPrevOfHead list prev).puddles = pool.puddles := by
  cases list <;> rfl

@[simp] theorem setPrevOfHead_available :
    (pool.setPrevOfHead list prev).available = pool.available := by
  cases list <;> rfl

@[simp] theorem setPrevOfHead_numElements :
    (pool.setPrevOfHead list prev).numElements = pool.numElements := by
  cases list <;> rfl

theorem sameSlots_setPrevOfHead (q : ℕ) :
    SameSlots (pool.puddleAt q) ((pool.setPrevOfHead list prev).puddleAt q) := by
  cases list with
  | nil => exact SameSlots.refl _
  | cons next _ => exact pool.sameSlots_setPrev next prev q

theorem prevAvailable_setPrevOfHead :
    (pool.setPrevOfHead list prev).prevAvailable =
      relinkHead pool.prevAvailable prev list := by
  cases list with
  | nil => rfl
  | cons next _ => exact pool.prevAvailable_setPrev next prev

end Links

/-- Memory for a new puddle: aligned as `memAlloc` aligns it, and no byte of it in use. -/
structure Fresh (pool : J9Pool) (memory : ℕ) : Prop where
  dvd : mallocAlignment ∣ memory
  apart : ∀ puddle ∈ pool.puddles, (pool.block memory).Apart (pool.block puddle)

theorem Represents.not_mem_puddles (h : pool.Represents live) {memory : ℕ}
    (hf : pool.Fresh memory) : memory ∉ pool.puddles := by
  intro hmem
  have hpos := Nat.mul_pos h.shape.elementsPerPuddle_pos h.shape.elementSize_pos
  have hroom := h.shape.roomy 0 (Nat.dvd_zero _)
  have hap := hf.apart memory hmem
  simp only [PuddleShape.block, Extent.Apart, Extent.top] at hap
  omega

/-- A new puddle enters the pool: it is available and holds no element. -/
theorem Represents.addPuddle (h : pool.Represents live) {memory : ℕ} (hf : pool.Fresh memory)
    {pool' : J9Pool} (hshape : pool'.toPuddleShape = pool.toPuddleShape)
    (hat : pool'.puddleAt = Function.update pool.puddleAt memory (pool.puddleInit memory none))
    (hpuddles : pool'.puddles.Perm (memory :: pool.puddles))
    (havail : pool'.available = memory :: pool.available)
    (hnum : pool'.numElements = pool.numElements) : pool'.Represents live := by
  have hnot := h.not_mem_puddles hf
  have hself : pool'.puddleAt memory = pool.puddleInit memory none := by
    rw [hat, Function.update_self]
  have hother : ∀ q ∈ pool.puddles, pool'.puddleAt q = pool.puddleAt q := by
    intro q hq
    rw [hat, Function.update_of_ne (ne_of_mem_of_not_mem hq hnot)]
  have hchain : (pool.puddleInit memory none).freeChain ≠ [] := by
    unfold PuddleShape.puddleInit PuddleShape.initialChain
    exact List.cons_ne_nil _ _
  refine ⟨hshape ▸ h.shape, ?_, ?_, ?_, ?_, ?_, h.live_nodup, ?_, ?_, ?_⟩
  · intro hnil
    exact absurd (hnil ▸ hpuddles).length_eq (by simp)
  · intro q hq
    obtain rfl | hq := List.mem_cons.1 (hpuddles.mem_iff.1 hq)
    · exact hf.dvd
    · exact h.puddle_dvd q hq
  · rw [hshape]
    refine (hpuddles.pairwise_iff fun hab => hab.symm).2 (List.pairwise_cons.2 ⟨?_, h.apart⟩)
    exact hf.apart
  · intro q hq
    rw [hshape]
    obtain rfl | hq := List.mem_cons.1 (hpuddles.mem_iff.1 hq)
    · exact hself ▸ PuddleShape.described_init h.shape _ _
    · exact hother q hq ▸ h.described q hq
  · have hmap : pool.puddles.map (fun q => (pool'.puddleAt q).usedElements) =
        pool.puddles.map fun q => (pool.puddleAt q).usedElements :=
      List.map_congr_left fun q hq => by rw [hother q hq]
    rw [hnum, (hpuddles.map _).sum_eq, List.map_cons, List.sum_cons, hself, hmap,
      h.numElements_eq]
    exact (Nat.zero_add _).symm
  · intro e
    rw [h.mem_live, hshape]
    constructor
    · rintro ⟨q, hq, hh⟩
      exact ⟨q, hpuddles.mem_iff.2 (List.mem_cons_of_mem _ hq), (hother q hq).symm ▸ hh⟩
    · rintro ⟨q, hq, hh⟩
      obtain rfl | hq := List.mem_cons.1 (hpuddles.mem_iff.1 hq)
      · rw [hself] at hh
        exact absurd hh (PuddleShape.not_holds_init _ _ _)
      · exact ⟨q, hq, hother q hq ▸ hh⟩
  · rw [havail]
    exact List.nodup_cons.2 ⟨fun hm => hnot ((h.mem_available memory).1 hm).1, h.available_nodup⟩
  · intro q
    rw [havail, List.mem_cons, h.mem_available, hpuddles.mem_iff, List.mem_cons]
    by_cases hq : q = memory
    · subst hq
      simp [hself, hchain]
    · simp [hq, hat]

theorem withAvailablePuddle_spec (h : pool.Represents live) (hl : pool.Linked) {memory : ℕ}
    (hf : pool.Fresh memory) : (pool.withAvailablePuddle memory).Represents live ∧
      (pool.withAvailablePuddle memory).Linked ∧
      (pool.withAvailablePuddle memory).available ≠ [] ∧
      (pool.withAvailablePuddle memory).toPuddleShape = pool.toPuddleShape := by
  unfold withAvailablePuddle
  split
  · rename_i hnil
    refine ⟨h.addPuddle hf rfl rfl (List.Perm.refl _) ?_ rfl, ?_, List.cons_ne_nil _ _, rfl⟩
    · rw [hnil]
    · have hself : Function.update pool.puddleAt memory (pool.puddleInit memory none) memory =
          pool.puddleInit memory none := Function.update_self ..
      refine ⟨fun q hq => ?_, fun _ => ⟨?_, trivial⟩, fun q hq hna => ?_⟩
      · cases hq
        exact congrArg J9PoolPuddle.prevAvailablePuddle hself
      · exact congrArg J9PoolPuddle.prevAvailablePuddle hself
      · have hne : q ≠ memory := fun hqm => hna (hqm ▸ List.mem_cons_self ..)
        have hold := hl.unlinked q ((List.mem_cons.1 hq).resolve_left hne) (by simp [hnil])
        simpa [prevAvailable, setPuddle, Function.update_of_ne hne] using hold
  · exact ⟨h, hl, ‹_›, rfl⟩

/-- What `takeElement` does: the first slot in the chain of the first available puddle is
used, and a puddle without a further one leaves the list. -/
theorem takeElement_cases (h : pool.Represents live) (hl : pool.Linked)
    (hne : pool.available ≠ []) :
    ∃ puddle next slot rest pool',
      pool.available = puddle :: next ∧
      (pool.puddleAt puddle).freeChain = slot :: rest ∧
      pool.takeElement = some (pool', pool.elementAddress puddle slot) ∧
      Changed pool pool' puddle ((pool.puddleAt puddle).takeSlot slot rest) ∧
      pool'.puddles = pool.puddles ∧
      pool'.numElements = pool.numElements + 1 ∧
      pool'.neverFreePuddles = pool.neverFreePuddles ∧
      (rest ≠ [] → pool'.available = pool.available ∧ pool'.prevAvailable = pool.prevAvailable) ∧
      (rest = [] → pool'.available = next ∧ pool'.prevAvailable =
        Function.update (relinkHead pool.prevAvailable none next) puddle none) := by
  obtain ⟨puddle, next, ha⟩ := List.exists_cons_of_ne_nil hne
  have hmem : puddle ∈ pool.available := ha ▸ List.mem_cons_self ..
  obtain ⟨slot, rest, hc⟩ := List.exists_cons_of_ne_nil ((h.mem_available puddle).1 hmem).2
  have hprev : (pool.puddleAt puddle).prevAvailablePuddle = none := hl.head puddle (by rw [ha]; rfl)
  have hchanged := pool.changed_takeSlot puddle slot rest
  by_cases hrest : rest = []
  · refine ⟨puddle, next, slot, rest,
      (({ pool.takeSlot puddle slot rest with available := next }).setPrevOfHead next
        none).setPrev puddle none, ha, hc, ?_, hchanged.sameSlots ?_ ?_, ?_, ?_, ?_,
      absurd hrest, fun _ => ⟨?_, ?_⟩⟩
    · have hprev' : ((pool.takeSlot puddle slot rest).puddleAt puddle).prevAvailablePuddle =
          none := (congrFun (pool.prevAvailable_takeSlot puddle slot rest) puddle).trans hprev
      unfold takeElement
      simp only [ha, hc, hprev', setNextAvailable]
      rw [if_pos hrest]
      rfl
    · simp [setPrev, setPuddle]
    · exact fun q => (sameSlots_setPrevOfHead { pool.takeSlot puddle slot rest with
        available := next } none next q).trans (sameSlots_setPrev _ puddle none q)
    · simp [setPrev, setPuddle, takeSlot]
    · simp [setPrev, setPuddle, takeSlot]
    · simp [setPrev, setPuddle, takeSlot]
    · simp [setPrev, setPuddle]
    · rw [prevAvailable_setPrev, prevAvailable_setPrevOfHead]
      exact congrArg (fun f => Function.update (relinkHead f none next) puddle none)
        (pool.prevAvailable_takeSlot puddle slot rest)
  · refine ⟨puddle, next, slot, rest, pool.takeSlot puddle slot rest, ha, hc, ?_, hchanged,
      rfl, rfl, rfl, fun _ => ⟨rfl, pool.prevAvailable_takeSlot puddle slot rest⟩,
      fun hr => absurd hr hrest⟩
    unfold takeElement
    simp only [ha, hc]
    rw [if_neg hrest]
    rfl

/-- `takeElement` gives an aligned element that was not live. -/
theorem takeElement_spec (h : pool.Represents live) (hl : pool.Linked)
    (hne : pool.available ≠ []) :
    ∃ pool' element, pool.takeElement = some (pool', element) ∧
      pool'.Represents (element :: live) ∧ pool'.Linked ∧
      pool'.toPuddleShape = pool.toPuddleShape ∧ pool.alignment ∣ element := by
  obtain ⟨puddle, next, slot, rest, pool', ha, hc, htake, hchanged, hpuddles, hnum, hnever,
    hmore, hlast⟩ := takeElement_cases h hl hne
  have hp : puddle ∈ pool.puddles :=
    ((h.mem_available puddle).1 (ha ▸ List.mem_cons_self ..)).1
  have hd := h.described puddle hp
  obtain ⟨hslot, hfree⟩ := hd.of_mem_chain (hc ▸ List.mem_cons_self ..)
  have hnodup := h.available_nodup
  rw [ha, List.nodup_cons] at hnodup
  refine ⟨pool', pool.elementAddress puddle slot, htake, ?_, ?_, hchanged.shape,
    h.shape.elementAddress_dvd puddle slot⟩
  · refine h.change hp hchanged hpuddles (hd.takeSlot hc) ?_ ?_ ?_ ?_ ?_
    · rw [hnum]
      simp only [J9PoolPuddle.takeSlot]
      omega
    · refine List.nodup_cons.2 ⟨?_, h.live_nodup⟩
      rw [h.mem_live_iff hp, not_or]
      refine ⟨?_, h.not_heldElsewhere hp hslot⟩
      rintro ⟨t, ht, hused, heq⟩
      rw [PuddleShape.elementAddress_inj h.shape heq, hfree] at hused
      cases hused
    · intro e
      rw [List.mem_cons, h.mem_live_iff hp, PuddleShape.holds_takeSlot hslot, or_assoc, eq_comm]
    · by_cases hrest : rest = []
      · exact (hlast hrest).1 ▸ hnodup.2
      · exact (hmore hrest).1 ▸ h.available_nodup
    · intro q
      by_cases hrest : rest = []
      · rw [(hlast hrest).1, ha, List.mem_cons]
        by_cases hq : q = puddle
        · subst hq
          simp [J9PoolPuddle.takeSlot, hrest, hnodup.1]
        · simp [hq]
      · rw [(hmore hrest).1]
        by_cases hq : q = puddle
        · subst hq
          simp [J9PoolPuddle.takeSlot, hrest, ha]
        · simp [hq]
  · by_cases hrest : rest = []
    · obtain ⟨havail, hprev⟩ := hlast hrest
      have hnext : ∀ q ∈ next, q ≠ puddle := fun q hq hqp => hnodup.1 (hqp ▸ hq)
      refine ⟨fun q hq => ?_, fun hnf => ?_, fun q hq hna => ?_⟩
      · rw [havail] at hq
        rw [hprev, Function.update_of_ne (hnext q (List.mem_of_mem_head? hq)),
          relinkHead_of_head _ _ hq]
      · have hback := hl.backLinked (hnever ▸ hnf)
        rw [ha] at hback
        rw [havail, hprev]
        exact (hback.2.relink hnodup.2 none).congr
          fun q hq => Function.update_of_ne (hnext q hq) ..
      · rw [havail] at hna
        rw [hprev]
        by_cases hqp : q = puddle
        · subst hqp
          exact Function.update_self ..
        · rw [Function.update_of_ne hqp, relinkHead_of_not_mem _ _ hna]
          exact hl.unlinked q (hpuddles ▸ hq) (by simp [ha, hqp, hna])
    · obtain ⟨havail, hprev⟩ := hmore hrest
      refine ⟨?_, fun hnf => ?_, ?_⟩
      · rw [havail, hprev]
        exact hl.head
      · rw [havail, hprev]
        exact hl.backLinked (hnever ▸ hnf)
      · rw [havail, hprev, hpuddles]
        exact hl.unlinked

/-- `pool_newElement` with memory at hand: the new element is aligned, was not live and
has no byte in common with one that was. -/
theorem newElement_spec (h : pool.Represents live) (hl : pool.Linked) {memory : ℕ}
    (hf : pool.Fresh memory) :
    ∃ pool' element, pool.newElement memory = some (pool', element) ∧
      pool'.Represents (element :: live) ∧ pool'.Linked ∧
      pool'.toPuddleShape = pool.toPuddleShape ∧ pool.alignment ∣ element ∧
      element ∉ live ∧
      ∀ x ∈ live, (pool.bytesOfElement element).Apart (pool.bytesOfElement x) := by
  obtain ⟨h₁, hl₁, hne, hshape₁⟩ := withAvailablePuddle_spec h hl hf
  obtain ⟨pool', element, htake, h₂, hl₂, hshape₂, hdvd⟩ := takeElement_spec h₁ hl₁ hne
  have hnot : element ∉ live := (List.nodup_cons.1 h₂.live_nodup).1
  rw [hshape₁] at hshape₂ hdvd
  refine ⟨pool', element, htake, h₂, hl₂, hshape₂, hdvd, hnot, fun x hx => ?_⟩
  have hap := h₂.live_apart (List.mem_cons_self ..) (List.mem_cons_of_mem _ hx)
    (ne_of_mem_of_not_mem hx hnot).symm
  rwa [hshape₂] at hap

/-- The puddle that a live element leads to is the one that holds it. -/
theorem Represents.find_puddle (h : pool.Represents live) {puddle slot : ℕ}
    (hp : puddle ∈ pool.puddles) (hs : slot < pool.elementsPerPuddle) :
    pool.puddles.find? (fun q => (pool.getElementPuddleSlot q
      (pool.elementAddress puddle slot)).isSome) = some puddle := by
  have hslot := h.shape.getElementPuddleSlot_eq puddle hs
  cases hfind : pool.puddles.find? (fun q => (pool.getElementPuddleSlot q
      (pool.elementAddress puddle slot)).isSome) with
  | none =>
    have := List.find?_eq_none.1 hfind puddle hp
    rw [hslot] at this
    exact absurd rfl this
  | some q =>
    have hq := List.mem_of_find?_eq_some hfind
    have hsome := List.find?_some hfind
    obtain ⟨t, ht⟩ := Option.isSome_iff_exists.1 hsome
    obtain ⟨htn, heq⟩ := PuddleShape.getElementPuddleSlot_some ht
    rw [h.puddle_unique hq hp htn hs heq]

theorem nextAvailable_eq {puddle : ℕ} {l₁ l₂ : List ℕ} (ha : pool.available = l₁ ++ puddle :: l₂)
    (hl₁ : puddle ∉ l₁) : pool.nextAvailable puddle = l₂ := by
  unfold nextAvailable
  rw [ha, List.dropWhile_append_of_pos fun q hq => by simpa using ne_of_mem_of_not_mem hq hl₁]
  simp

/-- Deleting a puddle takes it from both lists, wherever it is on the list of available
puddles or if it is not on it. -/
theorem puddleDelete_eq (pool : J9Pool) {puddle : ℕ} (hmore : pool.puddles ≠ [puddle])
    (hnodup : pool.available.Nodup) (hback : BackLinked pool.prevAvailable none pool.available)
    (hunlinked : puddle ∉ pool.available → pool.prevAvailable puddle = none) :
    pool.puddleDelete puddle =
      ({ pool with
        puddles := pool.puddles.erase puddle
        available := pool.available.erase puddle }).setPrevOfHead
          (pool.nextAvailable puddle) (pool.prevAvailable puddle) := by
  unfold puddleDelete
  rw [if_neg hmore]
  dsimp only
  congr 1
  by_cases hmem : puddle ∈ pool.available
  · obtain ⟨l₁, l₂, ha, hl₁⟩ := List.eq_append_cons_of_mem hmem
    have hdrop := nextAvailable_eq ha hl₁
    have herase : pool.available.erase puddle = l₁ ++ l₂ := by
      rw [ha, List.erase_append_right _ hl₁, List.erase_cons_head]
    have hprev := (ha ▸ hback).prev_eq
    obtain rfl | ⟨l, q, rfl⟩ := List.eq_nil_or_concat l₁
    · rw [if_pos (by rw [ha]; rfl), hdrop, herase]
      rfl
    · -- the puddle before it is the last of those in front, and is found by the back link
      have hhead : pool.available.head? ≠ some puddle := by
        intro hh
        rw [ha, List.head?_append_of_ne_nil _ (by simp)] at hh
        exact hl₁ (List.mem_of_mem_head? hh)
      have hq : (pool.puddleAt puddle).prevAvailablePuddle = some q := by
        simpa [prevAvailable] using hprev
      have hl : ∀ x ∈ l, x ≠ q := by
        rw [ha, List.concat_eq_append, List.append_assoc] at hnodup
        exact fun x hx hxq => List.disjoint_of_nodup_append hnodup hx (by simp [hxq])
      rw [if_neg hhead, if_pos (by rw [hq]; rfl), hq, herase, hdrop]
      have hqa : q ∈ pool.available := by simp [ha]
      simp only [setNextAvailable]
      rw [if_pos hqa]
      congr 1
      rw [ha, List.concat_eq_append, List.append_assoc, List.singleton_append,
        List.takeWhile_append_of_pos fun x hx => by simpa using hl x hx]
      simp
  · have hhead : pool.available.head? ≠ some puddle :=
      fun hh => hmem (List.mem_of_mem_head? hh)
    have hnone : (pool.puddleAt puddle).prevAvailablePuddle = none := hunlinked hmem
    rw [if_neg hhead, if_neg (by rw [hnone]; simp), List.erase_of_not_mem hmem]

/-- What is left after a puddle that holds nothing has been deleted. -/
theorem puddleDelete_linked {puddle : ℕ} (hl : pool.Linked)
    (hmore : pool.puddles ≠ [puddle]) (hpn : pool.puddles.Nodup)
    (hnodup : pool.available.Nodup) (hnever : pool.neverFreePuddles = false)
    (hp : puddle ∈ pool.puddles) : (pool.puddleDelete puddle).Linked := by
  have hback := hl.backLinked hnever
  rw [pool.puddleDelete_eq hmore hnodup hback (hl.unlinked puddle hp)]
  have hnext : ∀ q, q ∈ pool.nextAvailable puddle → q ∈ pool.available :=
    fun q hq => List.dropWhile_sublist _ |>.subset (List.mem_of_mem_tail hq)
  have hlinks : BackLinked (relinkHead pool.prevAvailable (pool.prevAvailable puddle)
      (pool.nextAvailable puddle)) none (pool.available.erase puddle) := by
    by_cases hmem : puddle ∈ pool.available
    · obtain ⟨l₁, l₂, ha, hl₁⟩ := List.eq_append_cons_of_mem hmem
      rw [nextAvailable_eq ha hl₁]
      rw [ha] at hback hnodup ⊢
      rw [List.erase_append_right _ hl₁, List.erase_cons_head]
      exact hback.unlink hnodup
    · have hdrop : pool.nextAvailable puddle = [] := by
        unfold nextAvailable
        rw [List.dropWhile_eq_nil_iff.2 fun q hq => by simpa using ne_of_mem_of_not_mem hq hmem]
        rfl
      rw [hdrop, List.erase_of_not_mem hmem]
      exact hback
  refine ⟨fun q hq => ?_, fun _ => ?_, fun q hq hna => ?_⟩
  · rw [prevAvailable_setPrevOfHead]
    rw [setPrevOfHead_available] at hq
    change (pool.available.erase puddle).head? = _ at hq
    cases hlist : pool.available.erase puddle with
    | nil => rw [hlist] at hq; cases hq
    | cons r rest =>
      rw [hlist] at hq hlinks
      cases hq
      exact hlinks.1
  · rw [prevAvailable_setPrevOfHead, setPrevOfHead_available]
    exact hlinks
  · rw [setPrevOfHead_puddles] at hq
    rw [setPrevOfHead_available] at hna
    obtain ⟨hqp, hq⟩ := hpn.mem_erase_iff.1 hq
    have hna : q ∉ pool.available := fun hm => hna (hnodup.mem_erase_iff.2 ⟨hqp, hm⟩)
    rw [prevAvailable_setPrevOfHead, relinkHead_of_not_mem _ _ fun hm => hna (hnext q hm)]
    exact hl.unlinked q hq hna

/-- What the puddle of a removed element is left with. -/
theorem pushAvailable_linked {puddle : ℕ} (hl : pool.Linked) (hnodup : pool.available.Nodup)
    (hnot : puddle ∉ pool.available) : (pool.pushAvailable puddle).Linked := by
  have hprev : (pool.pushAvailable puddle).prevAvailable =
      relinkHead (Function.update pool.prevAvailable puddle none) (some puddle)
        pool.available := by
    unfold pushAvailable
    rw [prevAvailable_setPrevOfHead]
    exact congrArg (relinkHead · _ _) (prevAvailable_setPrev pool puddle none)
  have havail : (pool.pushAvailable puddle).available = puddle :: pool.available := by
    simp [pushAvailable]
  have hself : (pool.pushAvailable puddle).prevAvailable puddle = none := by
    rw [hprev, relinkHead_of_not_mem _ _ hnot, Function.update_self]
  refine ⟨fun q hq => ?_, fun hnf => ?_, fun q hq hna => ?_⟩
  · rw [havail] at hq
    cases hq
    exact hself
  · have hback := hl.backLinked (by simpa [pushAvailable, setPrev, setPuddle] using hnf)
    rw [havail]
    refine ⟨hself, hprev ▸ BackLinked.relink (hback.congr fun q hq => ?_) hnodup _⟩
    exact Function.update_of_ne (ne_of_mem_of_not_mem hq hnot) ..
  · rw [havail, List.mem_cons, not_or] at hna
    rw [hprev, relinkHead_of_not_mem _ _ hna.2, Function.update_of_ne hna.1]
    exact hl.unlinked q (by simpa [pushAvailable, setPrev, setPuddle] using hq) hna.2

/-- The removal that loses a slot: the only element of the only puddle, in a pool with one
slot a puddle that may free puddles. The puddle was full and so is not available, is not
deleted because it is the last, and is not made available because it is now empty. -/
def LosesSlot (pool : J9Pool) : Prop :=
  pool.elementsPerPuddle = 1 ∧ pool.puddles.length = 1 ∧ pool.neverFreePuddles = false

instance (pool : J9Pool) : Decidable pool.LosesSlot := inferInstanceAs (Decidable (_ ∧ _ ∧ _))

section Remove

variable {puddle slot : ℕ}

theorem Linked.freeSlot (hl : pool.Linked) : (pool.freeSlot puddle slot).Linked := by
  refine ⟨?_, ?_, ?_⟩ <;> rw [prevAvailable_freeSlot]
  · exact hl.head
  · exact hl.backLinked
  · exact hl.unlinked

theorem Represents.mem_live_freeSlot (h : pool.Represents live) (hp : puddle ∈ pool.puddles)
    (hs : slot < pool.elementsPerPuddle) (e : ℕ) :
    e ∈ live.erase (pool.elementAddress puddle slot) ↔
      pool.Holds puddle ((pool.puddleAt puddle).freeSlot slot) e ∨
        pool.HeldElsewhere puddle e := by
  rw [h.live_nodup.mem_erase_iff, h.mem_live_iff hp, PuddleShape.holds_freeSlot h.shape,
    and_or_left]
  refine or_congr_right (and_iff_right_of_imp ?_)
  rintro hheld rfl
  exact h.not_heldElsewhere hp hs hheld

variable (h : pool.Represents live) (hl : pool.Linked) (hp : puddle ∈ pool.puddles)
  (hs : slot < pool.elementsPerPuddle) (hused : (pool.puddleAt puddle).slotFree slot = false)

include h hp hs hused

theorem Represents.numElements_freeSlot :
    (pool.freeSlot puddle slot).numElements + (pool.puddleAt puddle).usedElements =
      pool.numElements + ((pool.puddleAt puddle).freeSlot slot).usedElements := by
  have hsum := h.usedElements_add hp
  have hpos := ((h.described puddle hp).chain_lt hs hused).2
  simp only [freeSlot, J9PoolPuddle.freeSlot]
  omega

/-- A puddle that was available stays so, in its place. -/
theorem Represents.freeSlot (hc : (pool.puddleAt puddle).freeChain ≠ []) :
    (pool.freeSlot puddle slot).Represents (live.erase (pool.elementAddress puddle slot)) := by
  refine h.change hp (pool.changed_freeSlot puddle slot) rfl
    ((h.described puddle hp).freeSlot hs hused) (h.numElements_freeSlot hp hs hused)
    (h.live_nodup.erase _) (h.mem_live_freeSlot hp hs) h.available_nodup fun q => ?_
  change q ∈ pool.available ↔ _
  by_cases hq : q = puddle
  · subst hq
    simp [J9PoolPuddle.freeSlot, (h.mem_available q).2 ⟨hp, hc⟩]
  · rw [if_neg hq]

/-- A puddle that was full becomes the first available one. -/
theorem Represents.freeSlot_pushAvailable (hc : (pool.puddleAt puddle).freeChain = []) :
    ((pool.freeSlot puddle slot).pushAvailable puddle).Represents
      (live.erase (pool.elementAddress puddle slot)) := by
  have hna : puddle ∉ pool.available := fun hm => ((h.mem_available puddle).1 hm).2 hc
  have hpush : ((pool.freeSlot puddle slot).pushAvailable puddle).available =
      puddle :: pool.available := by
    simp [pushAvailable, J9Pool.freeSlot, setPuddle]
  have hchanged : Changed pool ((pool.freeSlot puddle slot).pushAvailable puddle) puddle
      ((pool.puddleAt puddle).freeSlot slot) := by
    refine (pool.changed_freeSlot puddle slot).sameSlots ?_ fun q => ?_
    · simp [pushAvailable, setPrev, setPuddle]
    · exact (sameSlots_setPrev (pool.freeSlot puddle slot) puddle none q).trans
        (sameSlots_setPrevOfHead { (pool.freeSlot puddle slot).setPrev puddle none with
          available := puddle :: pool.available } _ _ _)
  refine h.change hp hchanged ?_ ((h.described puddle hp).freeSlot hs hused) ?_
    (h.live_nodup.erase _) (h.mem_live_freeSlot hp hs) ?_ ?_
  · simp [pushAvailable, setPrev, setPuddle, J9Pool.freeSlot]
  · simpa [pushAvailable, setPrev, setPuddle] using h.numElements_freeSlot hp hs hused
  · rw [hpush]
    exact List.nodup_cons.2 ⟨hna, h.available_nodup⟩
  · intro q
    rw [hpush, List.mem_cons]
    by_cases hq : q = puddle
    · simp [hq, J9PoolPuddle.freeSlot]
    · simp [hq]

include hl

/-- A puddle that holds nothing more leaves the pool. -/
theorem Represents.freeSlot_puddleDelete
    (hzero : ((pool.puddleAt puddle).freeSlot slot).usedElements = 0)
    (hnever : pool.neverFreePuddles = false) (hmore : pool.puddles ≠ [puddle]) :
    ((pool.freeSlot puddle slot).puddleDelete puddle).Represents
      (live.erase (pool.elementAddress puddle slot)) := by
  have hmid : (pool.freeSlot puddle slot).Linked := hl.freeSlot
  rw [puddleDelete_eq (pool.freeSlot puddle slot) hmore h.available_nodup
    (hmid.backLinked hnever) (hmid.unlinked puddle hp)]
  have hchanged : Changed pool (({ pool.freeSlot puddle slot with
        puddles := pool.puddles.erase puddle
        available := pool.available.erase puddle }).setPrevOfHead
          ((pool.freeSlot puddle slot).nextAvailable puddle)
          ((pool.freeSlot puddle slot).prevAvailable puddle)) puddle
      ((pool.puddleAt puddle).freeSlot slot) := by
    refine (pool.changed_freeSlot puddle slot).sameSlots ?_ fun q => ?_
    · rw [setPrevOfHead_toPuddleShape]
    · exact sameSlots_setPrevOfHead { pool.freeSlot puddle slot with
        puddles := pool.puddles.erase puddle
        available := pool.available.erase puddle } _ _ q
  refine h.drop hp hchanged ?_ hmore ?_ (h.live_nodup.erase _) (fun e => ?_) ?_
  · rw [setPrevOfHead_puddles]
  · rw [setPrevOfHead_numElements]
    exact (h.numElements_freeSlot hp hs hused).trans (by rw [hzero, Nat.add_zero])
  · rw [h.mem_live_freeSlot hp hs,
      or_iff_right (((h.described puddle hp).freeSlot hs hused).not_holds hzero e)]
  · rw [setPrevOfHead_available]

end Remove

theorem removeElement_spec (h : pool.Represents live) (hl : pool.Linked) {element : ℕ}
    (he : element ∈ live) (hroom : ¬pool.LosesSlot) :
    ∃ pool', pool.removeElement element = some pool' ∧
      pool'.Represents (live.erase element) ∧ pool'.Linked ∧
      pool'.toPuddleShape = pool.toPuddleShape := by
  obtain ⟨puddle, hp, slot, hs, hused, rfl⟩ := (h.mem_live element).1 he
  have hself : (pool.freeSlot puddle slot).puddleAt puddle =
      (pool.puddleAt puddle).freeSlot slot := Function.update_self ..
  have hmid : (pool.freeSlot puddle slot).Linked := hl.freeSlot
  unfold removeElement
  simp only [h.find_puddle hp hs, h.shape.getElementPuddleSlot_eq puddle hs, hused,
    Bool.false_eq_true, if_false, hself]
  split
  · rename_i hzero
    refine ⟨_, rfl, ?_⟩
    by_cases hlast : pool.puddles = [puddle]
    · rw [puddleDelete, if_pos (show (pool.freeSlot puddle slot).puddles = [puddle] from hlast)]
      refine ⟨h.freeSlot hp hs hused fun hc => hroom ?_, hmid, rfl⟩
      -- the puddle was full, so it has one slot for elements
      have hcount := (h.described puddle hp).count
      have hpos := ((h.described puddle hp).chain_lt hs hused).2
      have hone : (pool.puddleAt puddle).usedElements - 1 = 0 := hzero.1
      rw [hc, List.length_nil] at hcount
      exact ⟨h.shape.one_slot puddle (by omega), by rw [hlast]; rfl, hzero.2⟩
    · refine ⟨h.freeSlot_puddleDelete hl hp hs hused hzero.1 hzero.2 hlast,
        puddleDelete_linked hmid hlast h.puddles_nodup h.available_nodup hzero.2 hp, ?_⟩
      rw [puddleDelete_eq (pool.freeSlot puddle slot) hlast h.available_nodup
        (hmid.backLinked hzero.2) (hmid.unlinked puddle hp), setPrevOfHead_toPuddleShape]
      rfl
  · split
    · rename_i hc
      refine ⟨_, rfl, h.freeSlot_pushAvailable hp hs hused hc,
        pushAvailable_linked hmid h.available_nodup fun hm => ((h.mem_available puddle).1 hm).2 hc,
        ?_⟩
      simp [pushAvailable, setPrev, setPuddle, freeSlot]
    · exact ⟨_, rfl, h.freeSlot hp hs hused ‹_›, hmid, rfl⟩

end J9Pool

end OMR.Util.Pool
