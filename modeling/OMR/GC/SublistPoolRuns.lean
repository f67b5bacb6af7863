import OMR.GC.SublistPoolFragments

/-!
# Runs of a sublist pool

Threads add entries through their fragments or one by one, puddles are taken off for
processing and given back, and in between the pool is compacted or cleared. What has been
added and removed is recorded beside the pool.
-/

namespace OMR.GC.SublistPool

open OMR.Lib

variable {P E T : Type*}

/-- A pool with its users. -/
structure System (P E T : Type*) where
  pool : SublistPool P E
  fragment : T → SublistFragment P
  /-- The iterators over the puddles that are being processed. -/
  iterator : P → SublistSlotIterator
  /-- The puddles that have been popped and not been returned. -/
  processed : Finset P
  added : Multiset E
  removed : Multiset E

inductive Op (P E T : Type*) where
  | add (t : T) (entry : E) (memory : Option P)
  | allocateMemoryForSublistFragment (t : T) (memory : Option P)
  | flush (t : T)
  | addElement (entry : E) (memory : Option P)
  | startProcessingSublist
  | popPreviousPuddle (returnedPuddle : Option P)
  | nextSlot (puddle : P)
  | removeSlot (puddle : P)
  | compact
  | clear

variable [DecidableEq P] [DecidableEq T]

/-- Without entries, puddles or processing. -/
def System.initialState (growSize maxSize : ℕ) (fragmentSize : T → ℕ) (next : P → Option P)
    (puddle : P → SublistPuddle E) : System P E T :=
  ⟨initialized growSize maxSize next puddle, fun t => ⟨none, 0, 0, fragmentSize t, 0⟩,
    fun _ => .start, ∅, 0, 0⟩

namespace System

def setFragment (s : System P E T) (t : T) (fragment : SublistFragment P) : System P E T :=
  { s with fragment := Function.update s.fragment t fragment }

def add (s : System P E T) (t : T) (entry : E) (memory : Option P) : Option (System P E T) :=
  (s.pool.add (s.fragment t) entry memory).map fun (done, pool, fragment) =>
    { s.setFragment t fragment with
      pool := pool
      added := if done then s.added + {entry} else s.added }

def refill (s : System P E T) (t : T) (memory : Option P) : Option (System P E T) :=
  (s.pool.allocateMemoryForSublistFragment (s.fragment t) memory).map fun (_, pool, fragment) =>
    { s.setFragment t fragment with pool := pool }

def flush (s : System P E T) (t : T) : System P E T :=
  let (pool, fragment) := s.pool.flush (s.fragment t)
  { s.setFragment t fragment with pool := pool }

def addElement (s : System P E T) (entry : E) (memory : Option P) : System P E T :=
  match s.pool.allocateElementNoContention memory with
  | (none, pool) => { s with pool := pool }
  | (some slot, pool) =>
    { s with pool := pool.storeEntry slot entry, added := s.added + {entry} }

def popPreviousPuddle (s : System P E T) (returnedPuddle : Option P) : Option (System P E T) :=
  let processed := s.processed \ returnedPuddle.toFinset
  (s.pool.popPreviousPuddle returnedPuddle).map fun (result, pool) =>
    match result with
    | none => { s with pool := pool, processed := processed }
    | some puddle => { s with
        pool := pool
        processed := insert puddle processed
        iterator := Function.update s.iterator puddle .start }

def nextSlot (s : System P E T) (puddle : P) : System P E T :=
  let (pool, iterator) := s.pool.nextSlot puddle (s.iterator puddle)
  { s with pool := pool, iterator := Function.update s.iterator puddle iterator }

def removeSlot (s : System P E T) (puddle : P) : System P E T :=
  let scanPtr := (s.iterator puddle).scanPtr
  let contents := s.pool.puddle puddle
  { s with
    pool := s.pool.setPuddle puddle (contents.removeSlot scanPtr)
    iterator := Function.update s.iterator puddle (s.iterator puddle).removeSlot
    removed := s.removed + slotEntry (contents.store.getD (scanPtr - 1) none) }

/-- One operation; an assertion that fails gives nothing. -/
def exec (s : System P E T) : Op P E T → Option (System P E T)
  | .add t entry memory => s.add t entry memory
  | .allocateMemoryForSublistFragment t memory => s.refill t memory
  | .flush t => some (s.flush t)
  | .addElement entry memory => some (s.addElement entry memory)
  | .startProcessingSublist => s.pool.startProcessingSublist.map fun pool => { s with pool := pool }
  | .popPreviousPuddle returnedPuddle => s.popPreviousPuddle returnedPuddle
  | .nextSlot puddle => some (s.nextSlot puddle)
  | .removeSlot puddle => some (s.removeSlot puddle)
  | .compact => s.pool.compact.map fun pool => { s with pool := pool }
  | .clear => s.pool.clear.map fun pool => { s with pool := pool, added := 0, removed := 0 }

/-- What the callers see to. The forge gives memory that is not in use; only popped puddles are
returned, scanned and removed from; a slot is removed after it has been scanned, and not from
under a fragment; `compact` and `clear` find the fragments flushed, and `clear` nobody at work. -/
def Permitted (s : System P E T) : Op P E T → Prop
  | .add _ _ memory => ∀ p, memory = some p → p ∉ s.pool.allocated
  | .allocateMemoryForSublistFragment _ memory => ∀ p, memory = some p → p ∉ s.pool.allocated
  | .flush _ => True
  | .addElement _ memory => ∀ p, memory = some p → p ∉ s.pool.allocated
  | .startProcessingSublist => s.pool.previousList = none
  | .popPreviousPuddle returnedPuddle => ∀ p, returnedPuddle = some p → p ∈ s.processed
  | .nextSlot puddle => puddle ∈ s.processed
  | .removeSlot puddle => puddle ∈ s.processed ∧ 0 < (s.iterator puddle).scanPtr ∧
      ∀ t, (s.fragment t).Open → (s.fragment t).puddle ≠ some puddle
  | .compact => ∀ t, ¬ (s.fragment t).Open
  | .clear => (∀ t, ¬ (s.fragment t).Open) ∧ s.processed = ∅

/-- The puddles that are not on the list are on the previous list, or are being processed. -/
structure Away (pool : SublistPool P E) (previous : List P) (processed : Finset P) : Prop where
  linked : ForwardLinked pool.next none previous
  head : pool.previousList = previous.head?
  nodup : previous.Nodup
  notProcessed : ∀ p ∈ previous, p ∉ processed
  unlinked : ∀ p ∈ processed, pool.next p = none

structure Inv (s : System P E T) : Prop where
  lists : ∃ list previous, Listed s.pool list (fun p => p ∈ previous ∨ p ∈ s.processed) ∧
    Away s.pool previous s.processed
  accounts : s.pool.Accounts s.pool.storedEntries 0
  balance : s.pool.storedEntries + s.removed = s.added
  sized : s.pool.Sized
  fragments : Fragments s.pool s.fragment
  iterators : ∀ p ∈ s.processed, (s.iterator p).scanPtr ≤ (s.pool.puddle p).listCurrent

namespace Inv

variable {s : System P E T} {pool' : SublistPool P E} {p : P} {current top : ℕ}

omit [DecidableEq P] [DecidableEq T] in
/-- Slots have been taken into use: the lists and the accounts are kept. -/
theorem serve (h : Inv s) {previous : List P} (haway : Away s.pool previous s.processed)
    (hserved : Served s.pool pool' (fun q => q ∈ previous ∨ q ∈ s.processed)
      s.pool.storedEntries p current top)
    {fragment : T → SublistFragment P} (hfragments : Fragments pool' fragment) :
    Inv { s with pool := pool', fragment := fragment } := by
  have hgranted := hserved.granted
  have haccounts := hserved.accounts
  have hprocessed : ∀ q ∈ s.processed, pool'.puddle q = s.pool.puddle q := fun q hq => by
    obtain ⟨list, previous', hlisted, -⟩ := h.lists
    refine hgranted.puddle q ((hlisted.allocated q).2 (.inr (.inr hq))) ?_
    rintro rfl
    exact hgranted.notOthers (.inr hq)
  obtain ⟨list, hlisted⟩ := hserved.listed
  refine ⟨⟨list, previous, hlisted, ?_⟩, ⟨haccounts.valid, rfl, haccounts.size⟩, ?_, hserved.sized,
    hfragments, fun q hq => ?_⟩
  · refine ⟨haway.linked.congr fun q hq => hgranted.next q (.inl hq), ?_, haway.nodup,
      haway.notProcessed, fun q hq => (hgranted.next q (.inr hq)).trans (haway.unlinked q hq)⟩
    exact hgranted.previousList.trans haway.head
  · exact (congrArg (· + s.removed) haccounts.stored).trans h.balance
  · exact (h.iterators q hq).trans_eq (congrArg SublistPuddle.listCurrent (hprocessed q hq)).symm

omit [DecidableEq T] in
/-- An entry has been stored in a slot in use that was empty. -/
theorem storeEntry (h : Inv s) (hp : p ∈ s.pool.allocated) {slot : ℕ}
    (hslot : slot < (s.pool.puddle p).listCurrent)
    (hclear : (s.pool.puddle p).store.getD slot none = none) (entry : E)
    {fragment : T → SublistFragment P}
    (hfragments : Fragments (s.pool.storeEntry (p, slot) entry) fragment) :
    Inv { s with
      pool := s.pool.storeEntry (p, slot) entry
      fragment := fragment
      added := s.added + {entry} } := by
  have hvalid := h.accounts.valid p hp
  have hset := h.accounts.setPuddle hp (hvalid.setSlot hslot (some entry)) rfl
    {entry} 0 (by rw [hvalid.setSlot_entries hslot hclear, add_zero])
    (add_zero _)
  have hcurrent : ∀ q, ((s.pool.storeEntry (p, slot) entry).puddle q).listCurrent =
      (s.pool.puddle q).listCurrent := fun q => by
    by_cases heq : q = p
    · subst heq
      simp [SublistPool.storeEntry, setPuddle, SublistPuddle.setSlot]
    · simp [SublistPool.storeEntry, setPuddle, heq]
  obtain ⟨list, previous, hlisted, haway⟩ := h.lists
  refine ⟨⟨list, previous, ⟨hlisted.linked, hlisted.head, hlisted.last, hlisted.nodup,
    hlisted.notOthers, hlisted.allocated⟩, ⟨haway.linked, haway.head, haway.nodup,
    haway.notProcessed, haway.unlinked⟩⟩, ⟨hset.valid, rfl, hset.size⟩, ?_,
    ⟨h.sized.growSize_pos, h.sized.growSize_dvd, h.sized.maxSize_dvd, h.sized.bound⟩, hfragments,
    fun q hq => (h.iterators q hq).trans_eq (hcurrent q).symm⟩
  have hstored : (s.pool.storeEntry (p, slot) entry).storedEntries =
      s.pool.storedEntries + {entry} := hset.stored
  change (s.pool.storeEntry (p, slot) entry).storedEntries + s.removed = s.added + {entry}
  rw [hstored, ← h.balance]
  abel

/-- A fragment with a slot left takes an entry. -/
theorem take (h : Inv s) {t : T} (hopen : (s.fragment t).Open) (entry : E) :
    ∃ p, (s.fragment t).puddle = some p ∧
      Inv { s.setFragment t (takeSlot (s.fragment t)).2 with
        pool := s.pool.storeEntry (p, (s.fragment t).fragmentCurrent) entry
        added := s.added + {entry} } := by
  obtain ⟨p, hp, hpuddle, hle, hclear⟩ := h.fragments.inUse t hopen
  exact ⟨p, hpuddle, h.storeEntry hp (Nat.lt_of_lt_of_le hopen hle) (hclear _ le_rfl hopen) entry
    (h.fragments.take hopen hpuddle entry)⟩

/-- A thread asks for a fragment: it gets an open one, or nothing changes. -/
theorem allocate (h : Inv s) (t : T) {fragment : SublistFragment P}
    (hfragment : fragment.fragmentSize = (s.fragment t).fragmentSize) {memory : Option P}
    (hmemory : ∀ p, memory = some p → p ∉ s.pool.allocated) :
    s.pool.allocate fragment memory = some (false, s.pool, fragment) ∨
    ∃ pool' fragment', s.pool.allocate fragment memory = some (true, pool', fragment') ∧
      fragment'.Open ∧ Inv { s.setFragment t fragment' with pool := pool' } := by
  obtain ⟨list, previous, hlisted, haway⟩ := h.lists
  obtain ⟨slots, hslots, hsize⟩ := h.fragments.size t
  rcases hlisted.allocate h.accounts h.sized hslots (hfragment.trans hsize) hmemory with
    ⟨hnone, -⟩ | ⟨pool', p, current, top, hsome, hserved⟩
  · exact .inl hnone
  · exact .inr ⟨pool', _, hsome, hserved.granted.lt,
      h.serve haway hserved (h.fragments.grant hserved.granted t hfragment rfl rfl rfl)⟩

theorem add (h : Inv s) (t : T) (entry : E) {memory : Option P}
    (hmemory : ∀ p, memory = some p → p ∉ s.pool.allocated) :
    ∃ s', s.add t entry memory = some s' ∧ Inv s' := by
  by_cases hopen : (s.fragment t).Open
  · obtain ⟨p, hpuddle, hinv⟩ := h.take hopen entry
    have hlt : (s.fragment t).fragmentCurrent < (s.fragment t).fragmentTop := hopen
    refine ⟨_, ?_, hinv⟩
    simp only [System.add, SublistPool.add, allocateEntry, if_pos hlt, takeSlot, hpuddle,
      Option.map_some, if_true, SublistPool.storeEntry]
  have hnot : ¬ (s.fragment t).fragmentCurrent < (s.fragment t).fragmentTop := hopen
  rcases h.allocate t rfl hmemory with hnone | ⟨pool', fragment, hsome, hopen', hinv⟩
  · refine ⟨s, ?_, h⟩
    simp only [System.add, SublistPool.add, allocateEntry, if_neg hnot, hnone, Option.map_some,
      setFragment, Function.update_eq_self, Bool.false_eq_true, if_false]
  · have hself : ({ s.setFragment t fragment with pool := pool' } : System P E T).fragment t =
        fragment := Function.update_self ..
    obtain ⟨p, hpuddle, hinv'⟩ := hinv.take (t := t) (by rwa [hself]) entry
    rw [hself] at hpuddle hinv'
    refine ⟨_, ?_, hinv'⟩
    simp only [System.add, SublistPool.add, allocateEntry, if_neg hnot, hsome, takeSlot, hpuddle,
      Option.map_some, if_true, setFragment, Function.update_idem]

omit [DecidableEq P] in
/-- A fragment is closed; the count is beside the point. -/
theorem close (h : Inv s) (t : T) (fragment : SublistFragment P)
    (hsize : fragment.fragmentSize = (s.fragment t).fragmentSize) (hclosed : ¬ fragment.Open)
    (count : BitVec 64) :
    Inv { s.setFragment t fragment with pool := { s.pool with count := count } } := by
  obtain ⟨list, previous, hlisted, haway⟩ := h.lists
  have hfragments := h.fragments.close t hsize hclosed
  exact ⟨⟨list, previous, ⟨hlisted.linked, hlisted.head, hlisted.last, hlisted.nodup,
    hlisted.notOthers, hlisted.allocated⟩, ⟨haway.linked, haway.head, haway.nodup,
    haway.notProcessed, haway.unlinked⟩⟩, ⟨h.accounts.valid, rfl, h.accounts.size⟩, h.balance,
    ⟨h.sized.growSize_pos, h.sized.growSize_dvd, h.sized.maxSize_dvd, h.sized.bound⟩,
    ⟨hfragments.size, hfragments.inUse, hfragments.disjoint⟩, h.iterators⟩

omit [DecidableEq P] in
theorem flush (h : Inv s) (t : T) : Inv (s.flush t) := by
  have hclosed : ¬ (s.pool.flush (s.fragment t)).2.Open := Nat.lt_irrefl 0
  exact h.close t (s.pool.flush (s.fragment t)).2 rfl hclosed _

theorem refill (h : Inv s) (t : T) {memory : Option P}
    (hmemory : ∀ p, memory = some p → p ∉ s.pool.allocated) :
    ∃ s', s.refill t memory = some s' ∧ Inv s' := by
  have hself : (s.flush t).fragment t = (s.pool.flush (s.fragment t)).2 := Function.update_self ..
  rcases (h.flush t).allocate t (congrArg SublistFragment.fragmentSize hself).symm hmemory with
    hnone | ⟨pool', fragment, hsome, -, hinv⟩
  · refine ⟨s.flush t, ?_, h.flush t⟩
    change ((s.pool.flush (s.fragment t)).1.allocate (s.pool.flush (s.fragment t)).2 memory).map _ = _
    exact congrArg (Option.map _) hnone
  · have hidem : (s.flush t).setFragment t fragment =
        { s.setFragment t fragment with pool := (s.flush t).pool } := by
      simp only [setFragment, System.flush, Function.update_idem]
    rw [hidem] at hinv
    refine ⟨_, ?_, hinv⟩
    change ((s.pool.flush (s.fragment t)).1.allocate (s.pool.flush (s.fragment t)).2 memory).map _ = _
    exact congrArg (Option.map _) hsome

omit [DecidableEq T] in
theorem addElement (h : Inv s) (entry : E) {memory : Option P}
    (hmemory : ∀ p, memory = some p → p ∉ s.pool.allocated) :
    Inv (s.addElement entry memory) := by
  obtain ⟨list, previous, hlisted, haway⟩ := h.lists
  rcases hlisted.allocateElement h.accounts h.sized hmemory with
    ⟨hnone, -⟩ | ⟨pool', p, slot, hsome, hserved⟩
  · simp only [System.addElement, hnone]
    exact h
  · have hgranted := hserved.granted
    have hinv := h.serve haway hserved (h.fragments.granted hgranted)
    simp only [System.addElement, hsome]
    refine hinv.storeEntry hgranted.mem ?_ (hgranted.clear slot le_rfl) entry
      (hinv.fragments.storeEntry entry ?_)
    · exact hgranted.listCurrent ▸ Nat.lt_succ_self slot
    · intro t hopen hpuddle
      obtain ⟨q, hq, hq', hle, -⟩ := h.fragments.inUse t hopen
      obtain rfl : q = p := Option.some.inj (hq'.symm.trans hpuddle)
      exact .inr (hle.trans_eq (hgranted.same hq).1)

omit [DecidableEq T] in
/-- An iterator moves within the slots in use. -/
theorem setIterator (h : Inv s) (p : P) (iterator : SublistSlotIterator)
    (hle : iterator.scanPtr ≤ (s.pool.puddle p).listCurrent) (count : BitVec 64) :
    Inv { s with
      pool := { s.pool with count := count }
      iterator := Function.update s.iterator p iterator } := by
  obtain ⟨list, previous, hlisted, haway⟩ := h.lists
  refine ⟨⟨list, previous, ⟨hlisted.linked, hlisted.head, hlisted.last, hlisted.nodup,
    hlisted.notOthers, hlisted.allocated⟩, ⟨haway.linked, haway.head, haway.nodup,
    haway.notProcessed, haway.unlinked⟩⟩, ⟨h.accounts.valid, rfl, h.accounts.size⟩, h.balance,
    ⟨h.sized.growSize_pos, h.sized.growSize_dvd, h.sized.maxSize_dvd, h.sized.bound⟩,
    ⟨h.fragments.size, h.fragments.inUse, h.fragments.disjoint⟩, fun q hq => ?_⟩
  change (Function.update s.iterator p iterator q).scanPtr ≤ (s.pool.puddle q).listCurrent
  by_cases heq : q = p
  · subst heq
    rwa [Function.update_self]
  · rw [Function.update_of_ne heq]
    exact h.iterators q hq

omit [DecidableEq T] in
theorem nextSlot (h : Inv s) (hp : p ∈ s.processed) : Inv (s.nextSlot p) := by
  have hle := h.iterators p hp
  have hnext : ((s.iterator p).nextSlot (s.pool.puddle p)).2.scanPtr ≤
      (s.pool.puddle p).listCurrent := by
    simp only [SublistSlotIterator.nextSlot]
    split
    · assumption
    · exact hle
  rcases hresult : (s.iterator p).nextSlot (s.pool.puddle p) with ⟨slot, iterator⟩
  rw [hresult] at hnext
  cases slot with
  | none =>
    simp only [System.nextSlot, SublistPool.nextSlot, hresult]
    exact h.setIterator p iterator hnext _
  | some slot =>
    simp only [System.nextSlot, SublistPool.nextSlot, hresult]
    exact h.setIterator p iterator hnext s.pool.count

omit [DecidableEq T] in
/-- A puddle that is being processed loses a slot that has been scanned. -/
theorem removeSlot (h : Inv s) (hp : p ∈ s.processed) (hpos : 0 < (s.iterator p).scanPtr)
    (hfree : ∀ t, (s.fragment t).Open → (s.fragment t).puddle ≠ some p) :
    Inv (s.removeSlot p) := by
  obtain ⟨list, previous, hlisted, haway⟩ := h.lists
  have hallocated : p ∈ s.pool.allocated := (hlisted.allocated p).2 (.inr (.inr hp))
  have hvalid := h.accounts.valid p hallocated
  have hle := h.iterators p hp
  have hentries := hvalid.removeSlot_entries hpos hle
  have hsum : ((s.pool.setPuddle p
      ((s.pool.puddle p).removeSlot (s.iterator p).scanPtr)).storedEntries) +
        (s.pool.puddle p).entries =
      s.pool.storedEntries + ((s.pool.puddle p).removeSlot (s.iterator p).scanPtr).entries :=
    sum_update SublistPuddle.entries s.pool.puddle hallocated _
  have hstored : (s.pool.setPuddle p
      ((s.pool.puddle p).removeSlot (s.iterator p).scanPtr)).storedEntries +
        slotEntry ((s.pool.puddle p).store.getD ((s.iterator p).scanPtr - 1) none) =
      s.pool.storedEntries := by
    refine add_right_cancel
      (b := ((s.pool.puddle p).removeSlot (s.iterator p).scanPtr).entries) ?_
    rw [← hsum, ← hentries]
    abel
  have hset := h.accounts.setPuddle hallocated (hvalid.removeSlot hpos hle) rfl 0 _
    (by rw [hentries, add_zero]) (by rw [hstored, add_zero])
  have hkept : ∀ q ≠ p, (s.removeSlot p).pool.puddle q = s.pool.puddle q := fun q hne =>
    Function.update_of_ne hne ..
  refine ⟨⟨list, previous, ⟨hlisted.linked, hlisted.head, hlisted.last, hlisted.nodup,
    hlisted.notOthers, hlisted.allocated⟩, ⟨haway.linked, haway.head, haway.nodup,
    haway.notProcessed, haway.unlinked⟩⟩, hset, ?_,
    ⟨h.sized.growSize_pos, h.sized.growSize_dvd, h.sized.maxSize_dvd, h.sized.bound⟩,
    h.fragments.congr fun q hq ⟨t, hopen, hpuddle⟩ => ?_, fun q hq => ?_⟩
  · have hbalance := h.balance
    rw [← hstored] at hbalance
    exact ((congrArg _ (add_comm ..)).trans (add_assoc ..).symm).trans hbalance
  · have hne : q ≠ p := fun heq => hfree t hopen (heq ▸ hpuddle)
    exact ⟨hq, (congrArg SublistPuddle.listCurrent (hkept q hne)).ge,
      congrArg SublistPuddle.store (hkept q hne)⟩
  · by_cases heq : q = p
    · subst heq
      simp only [System.removeSlot, setPuddle, Function.update_self, SublistPuddle.removeSlot,
        SublistSlotIterator.removeSlot]
      omega
    · rw [hkept q heq]
      exact (congrArg SublistSlotIterator.scanPtr (Function.update_of_ne heq ..)).trans_le
        (h.iterators q hq)

omit [DecidableEq P] [DecidableEq T] in
/-- Puddles have changed places, and nothing else. -/
theorem relink (h : Inv s) (pool' : SublistPool P E) (hpuddle : pool'.puddle = s.pool.puddle)
    (hallocated : pool'.allocated = s.pool.allocated)
    (hcurrentSize : pool'.currentSize = s.pool.currentSize)
    (hgrowSize : pool'.growSize = s.pool.growSize) (hmaxSize : pool'.maxSize = s.pool.maxSize)
    {processed : Finset P} {iterator : P → SublistSlotIterator}
    (hlists : ∃ list previous, Listed pool' list (fun p => p ∈ previous ∨ p ∈ processed) ∧
      Away pool' previous processed)
    (hiterators : ∀ p ∈ processed, (iterator p).scanPtr ≤ (s.pool.puddle p).listCurrent) :
    Inv { s with pool := pool', processed := processed, iterator := iterator } := by
  obtain ⟨_, _, _, _, _, _, _, _, puddle, allocated⟩ := pool'
  simp only at hpuddle hallocated hcurrentSize hgrowSize hmaxSize
  subst hpuddle hallocated hcurrentSize hgrowSize hmaxSize
  exact ⟨hlists, ⟨h.accounts.valid, rfl, h.accounts.size⟩, h.balance,
    ⟨h.sized.growSize_pos, h.sized.growSize_dvd, h.sized.maxSize_dvd, h.sized.bound⟩,
    ⟨h.fragments.size, h.fragments.inUse, h.fragments.disjoint⟩, hiterators⟩

omit [DecidableEq T] in
theorem startProcessing (h : Inv s) (hprevious : s.pool.previousList = none) :
    ∃ pool', s.pool.startProcessingSublist = some pool' ∧ Inv { s with pool := pool' } := by
  obtain ⟨list, previous, hlisted, haway⟩ := h.lists
  obtain rfl : previous = [] := List.head?_eq_none_iff.1 (haway.head.symm.trans hprevious)
  obtain rfl | ⟨front, tail, rfl⟩ := list.eq_nil_or_concat'
  · have hlast : s.pool.allocPuddle = none := hlisted.last
    have hhead : s.pool.list = none := hlisted.head
    refine ⟨_, ?_, h.relink { s.pool with
      previousList := s.pool.list, list := none, allocPuddle := none } rfl rfl rfl rfl rfl
      ⟨[], [], ⟨trivial, rfl, rfl, List.nodup_nil, hlisted.notOthers, hlisted.allocated⟩,
        ⟨trivial, hhead, List.nodup_nil, haway.notProcessed, haway.unlinked⟩⟩ h.iterators⟩
    simp only [SublistPool.startProcessingSublist, hprevious, hlast, if_true]
  · have hlast : s.pool.allocPuddle = some tail := hlisted.last.trans List.getLast?_concat
    have htail : s.pool.next tail = none := (ForwardLinked.append_iff.1 hlisted.linked).2.1
    have hlinked := hlisted.linked.retarget hlisted.nodup List.getLast?_concat none
    have hothers := hlisted.notOthers
    have hprocessed : ∀ p ∈ s.processed, p ≠ tail := fun p hp heq =>
      hothers p (by simp [heq]) (.inr hp)
    refine ⟨_, ?_, h.relink { s.pool.setNext tail none with
      previousList := s.pool.list, list := none, allocPuddle := none } rfl rfl rfl rfl rfl
      ⟨[], front ++ [tail], ⟨trivial, rfl, rfl, List.nodup_nil, (fun p hp => by cases hp), fun p => ?_⟩,
        ⟨hlinked, hlisted.head, hlisted.nodup, fun p hp hin => hothers p hp (.inr hin),
          fun p hp => ?_⟩⟩ h.iterators⟩
    · simp only [SublistPool.startProcessingSublist, hprevious, hlast, htail, if_true,
        Option.all_none]
      rfl
    · exact (hlisted.allocated p).trans (by simp)
    · exact (Function.update_of_ne (hprocessed p hp) ..).trans (haway.unlinked p hp)

omit [DecidableEq T] in
theorem returnPuddle (h : Inv s) (hp : p ∈ s.processed) :
    ∃ pool', s.pool.returnPuddle p = some pool' ∧
      Inv { s with pool := pool', processed := s.processed.erase p } := by
  obtain ⟨list, previous, hlisted, haway⟩ := h.lists
  have hunlinked := haway.unlinked p hp
  have hnot : p ∉ list := fun hin => hlisted.notOthers p hin (.inr hp)
  have hnotPrevious : p ∉ previous := fun hin => haway.notProcessed p hin hp
  have hlinked : ForwardLinked (Function.update s.pool.next p s.pool.list) none (p :: list) := by
    refine ⟨?_, hlisted.linked.congr fun q hq => Function.update_of_ne (ne_of_mem_of_not_mem hq hnot) ..⟩
    rw [Option.or_none, ← hlisted.head]
    exact Function.update_self ..
  have hlists : ∀ allocPuddle : Option P, allocPuddle = (p :: list).getLast? →
      Inv { s with
        pool := { s.pool.setNext p s.pool.list with list := some p, allocPuddle := allocPuddle }
        processed := s.processed.erase p } := fun allocPuddle hlast => by
    refine h.relink { s.pool.setNext p s.pool.list with
      list := some p, allocPuddle := allocPuddle } rfl rfl rfl rfl rfl
      ⟨p :: list, previous, ⟨hlinked, rfl, hlast, List.nodup_cons.2 ⟨hnot, hlisted.nodup⟩,
        fun q hq => ?_, fun q => ?_⟩, ⟨haway.linked.congr fun q hq =>
          Function.update_of_ne (ne_of_mem_of_not_mem hq hnotPrevious) .., haway.head, haway.nodup,
          fun q hq hin => haway.notProcessed q hq (Finset.mem_of_mem_erase hin), fun q hq => ?_⟩⟩
      fun q hq => h.iterators q (Finset.mem_of_mem_erase hq)
    · rcases List.mem_cons.1 hq with rfl | hq
      · simpa using hnotPrevious
      · exact fun hin => hlisted.notOthers q hq (hin.imp_right Finset.mem_of_mem_erase)
    · refine (hlisted.allocated q).trans ?_
      by_cases heq : q = p
      · simp [heq, hp]
      · simp [heq]
    · exact (Function.update_of_ne (Finset.ne_of_mem_erase hq) ..).trans
        (haway.unlinked q (Finset.mem_of_mem_erase hq))
  obtain rfl | ⟨front, tail, rfl⟩ := list.eq_nil_or_concat'
  · have hlast : s.pool.allocPuddle = none := hlisted.last
    have hhead : s.pool.list = none := hlisted.head
    refine ⟨_, ?_, hlists (some p) rfl⟩
    simp [SublistPool.returnPuddle, hunlinked, hlast, hhead, setNext]
  · have hlast : s.pool.allocPuddle = some tail := hlisted.last.trans List.getLast?_concat
    refine ⟨_, ?_, hlists (some tail) (by rw [← List.cons_append, List.getLast?_concat])⟩
    simp only [SublistPool.returnPuddle, hunlinked, if_true, setNext, hlast]

omit [DecidableEq T] in
/-- The first puddle of the previous list is taken for processing. -/
theorem popPrevious (h : Inv s) :
    s.pool.popPrevious = (none, s.pool) ∨
    ∃ pool' p, s.pool.popPrevious = (some p, pool') ∧ Inv { s with
      pool := pool'
      processed := insert p s.processed
      iterator := Function.update s.iterator p .start } := by
  obtain ⟨list, previous, hlisted, haway⟩ := h.lists
  cases previous with
  | nil =>
    have hnone : s.pool.previousList = none := haway.head
    exact .inl (by simp only [SublistPool.popPrevious, hnone])
  | cons p previous =>
    have hsome : s.pool.previousList = some p := haway.head
    obtain ⟨hnotIn, hnodup⟩ := List.nodup_cons.1 haway.nodup
    have hnext : s.pool.next p = previous.head? := by rw [haway.linked.1, Option.or_none]
    refine .inr ⟨{ s.pool.setNext p none with previousList := s.pool.next p }, p, ?_,
      h.relink { s.pool.setNext p none with previousList := s.pool.next p } rfl rfl rfl rfl rfl ⟨list, previous, ⟨hlisted.linked.congr fun q hq => ?_,
        hlisted.head, hlisted.last, hlisted.nodup, fun q hq hin => ?_, fun q => ?_⟩,
        ⟨haway.linked.2.congr fun q hq => ?_, hnext, hnodup, fun q hq hin => ?_, fun q hq => ?_⟩⟩
      fun q hq => ?_⟩
    · simp only [SublistPool.popPrevious, hsome]
    · refine Function.update_of_ne ?_ ..
      rintro rfl
      exact hlisted.notOthers q hq (.inl (List.mem_cons_self ..))
    · refine hlisted.notOthers q hq ?_
      rcases hin with hin | hin
      · exact .inl (List.mem_cons_of_mem _ hin)
      · rcases Finset.mem_insert.1 hin with rfl | hin
        · exact .inl (List.mem_cons_self ..)
        · exact .inr hin
    · refine (hlisted.allocated q).trans ?_
      simp only [List.mem_cons, Finset.mem_insert]
      tauto
    · exact Function.update_of_ne (ne_of_mem_of_not_mem hq hnotIn) ..
    · rcases Finset.mem_insert.1 hin with rfl | hin
      · exact hnotIn hq
      · exact haway.notProcessed q (List.mem_cons_of_mem _ hq) hin
    · by_cases heq : q = p
      · subst heq
        exact Function.update_self ..
      · exact (Function.update_of_ne heq ..).trans
          (haway.unlinked q ((Finset.mem_insert.1 hq).resolve_left heq))
    · by_cases heq : q = p
      · subst heq
        rw [Function.update_self]
        exact Nat.zero_le _
      · rw [Function.update_of_ne heq]
        exact h.iterators q ((Finset.mem_insert.1 hq).resolve_left heq)

omit [DecidableEq T] in
theorem popPreviousPuddle (h : Inv s) {returnedPuddle : Option P}
    (hreturned : ∀ p, returnedPuddle = some p → p ∈ s.processed) :
    ∃ s', s.popPreviousPuddle returnedPuddle = some s' ∧ Inv s' := by
  -- the pool once the puddle has been returned
  obtain ⟨pool', hreturn, hinv⟩ : ∃ pool', s.pool.popPreviousPuddle returnedPuddle =
      some pool'.popPrevious ∧
        Inv { s with pool := pool', processed := s.processed \ returnedPuddle.toFinset } := by
    cases returnedPuddle with
    | none => exact ⟨s.pool, rfl, by simpa using h⟩
    | some p =>
      obtain ⟨pool', hreturn, hinv⟩ := h.returnPuddle (hreturned p rfl)
      refine ⟨pool', ?_, ?_⟩
      · rw [SublistPool.popPreviousPuddle, hreturn, Option.map_some]
      · rwa [Option.toFinset_some, Finset.sdiff_singleton_eq_erase]
  rcases hinv.popPrevious with hnone | ⟨pool'', p, hsome, hinv'⟩
  · refine ⟨_, ?_, hinv⟩
    have hnone : pool'.popPrevious = (none, pool') := hnone
    simp only [System.popPreviousPuddle, hreturn, Option.map_some, hnone]
  · refine ⟨_, ?_, hinv'⟩
    have hsome : pool'.popPrevious = (some p, pool'') := hsome
    simp only [System.popPreviousPuddle, hreturn, Option.map_some, hsome]

end Inv

omit [DecidableEq T] in
/-- The puddles of a list are killed one after the other. -/
theorem killList_eq (pool : SublistPool P E) (list : List P) (hlinked : ForwardLinked pool.next none list) {rounds : ℕ}
    (hrounds : list.length ≤ rounds) :
    killList rounds pool list.head? =
      some { pool with allocated := pool.allocated \ list.toFinset } := by
  induction list generalizing pool rounds with
  | nil =>
    have hsame : { pool with allocated := pool.allocated \ (∅ : Finset P) } = pool := by
      rw [Finset.sdiff_empty]
    cases rounds <;> exact congrArg some hsame.symm
  | cons p list ih =>
    cases rounds with
    | zero => cases hrounds
    | succ rounds =>
      have hnext : pool.next p = list.head? := by rw [hlinked.1, Option.or_none]
      have hrest : killList rounds (pool.kill p) list.head? = some { pool.kill p with
          allocated := (pool.kill p).allocated \ list.toFinset } :=
        ih (pool.kill p) hlinked.2 (Nat.le_of_succ_le_succ hrounds)
      rw [List.head?_cons, killList, hnext, hrest, List.toFinset_cons, kill]
      simp only [Finset.sdiff_insert, Finset.erase_sdiff_comm]

namespace Inv

variable {s : System P E T}

omit [DecidableEq T] in
theorem clear (h : Inv s) (hflushed : ∀ t, ¬ (s.fragment t).Open) (hprocessed : s.processed = ∅) :
    ∃ pool', s.pool.clear = some pool' ∧ Inv { s with pool := pool', added := 0, removed := 0 } := by
  obtain ⟨list, previous, hlisted, haway⟩ := h.lists
  have hrounds : ∀ puddles : List P, puddles.Nodup → (∀ p ∈ puddles, p ∈ s.pool.allocated) →
      puddles.length ≤ s.pool.allocated.card := fun puddles hnodup hin => by
    rw [← List.toFinset_card_of_nodup hnodup]
    exact Finset.card_le_card fun p hp => hin p (List.mem_toFinset.1 hp)
  have hfirst := (congrArg (killList s.pool.allocated.card { s.pool with currentSize := 0 })
    hlisted.head).trans (killList_eq { s.pool with currentSize := 0 } list hlisted.linked
      (hrounds list hlisted.nodup fun p hp => (hlisted.allocated p).2 (.inl hp)))
  have hsecond := (congrArg (killList s.pool.allocated.card { s.pool with
    currentSize := 0, allocated := s.pool.allocated \ list.toFinset }) haway.head).trans
      (killList_eq { s.pool with
        currentSize := 0, allocated := s.pool.allocated \ list.toFinset } previous haway.linked
        (hrounds previous haway.nodup fun p hp => (hlisted.allocated p).2 (.inr (.inl hp))))
  have hnone : (s.pool.allocated \ list.toFinset) \ previous.toFinset = ∅ := by
    ext p
    have := hlisted.allocated p
    simp only [hprocessed, Finset.notMem_empty, or_false] at this
    simp only [Finset.mem_sdiff, List.mem_toFinset, Finset.notMem_empty, iff_false]
    tauto
  rw [hnone] at hsecond
  have hempty : ∀ p, p ∉ ([] : List P) := fun p hp => by cases hp
  have hidle : ∀ p, p ∉ s.processed := fun p hp => by
    rw [hprocessed] at hp
    exact Finset.notMem_empty p hp
  refine ⟨{ s.pool with
    list := none, allocPuddle := none, previousList := none, currentSize := 0, count := 0
    allocated := ∅ }, ?_, ⟨[], [], ⟨trivial, rfl, rfl, List.nodup_nil,
      (fun p hp => absurd hp (hempty p)), fun p => ?_⟩, ⟨trivial, rfl, List.nodup_nil,
      (fun p hp => absurd hp (hempty p)), fun p hp => absurd hp (hidle p)⟩⟩,
    ⟨(fun p hp => absurd hp (Finset.notMem_empty p)), rfl, rfl⟩, rfl, ⟨h.sized.growSize_pos,
      h.sized.growSize_dvd, h.sized.maxSize_dvd, fun _ => Nat.zero_le _⟩, ⟨h.fragments.size,
      (fun t hopen => absurd hopen (hflushed t)), h.fragments.disjoint⟩,
    fun p hp => absurd hp (hidle p)⟩
  · simp only [SublistPool.clear, hfirst, Option.bind_some, hsecond, Option.map_some]
  · exact iff_of_false (Finset.notMem_empty p) fun hin => hin.elim (hempty p) fun hin =>
      hin.elim (hempty p) (hidle p)

omit [DecidableEq T] in
/-- Compaction keeps everything but, when it meets empty puddles, the size. -/
theorem compact (h : Inv s) (hflushed : ∀ t, ¬ (s.fragment t).Open) :
    ∃ pool' list, s.pool.compact = some pool' ∧ ForwardLinked s.pool.next none list ∧
      s.pool.list = list.head? ∧
      pool'.currentSize = pool'.ownedSize + (list.map (emptySize s.pool)).sum ∧
      ((list.map (emptySize s.pool)).sum = 0 → Inv { s with pool := pool' }) := by
  obtain ⟨list, previous, hlisted, haway⟩ := h.lists
  obtain ⟨pool', list', hcompact, hlisted', haccounts, hkeeps⟩ := hlisted.compact h.accounts
  refine ⟨pool', list, hcompact, hlisted.linked, hlisted.head, haccounts.size, fun hzero => ?_⟩
  rw [hzero] at haccounts
  refine ⟨⟨list', previous, hlisted', ?_⟩, ⟨haccounts.valid, rfl, haccounts.size⟩, ?_, ?_,
    ⟨h.fragments.size, (fun t hopen => absurd hopen (hflushed t)), h.fragments.disjoint⟩,
    fun p hp => ?_⟩
  · refine ⟨haway.linked.congr fun q hq => hkeeps.next q (.inl hq), ?_, haway.nodup,
      haway.notProcessed, fun q hq => (hkeeps.next q (.inr hq)).trans (haway.unlinked q hq)⟩
    exact hkeeps.previousList.trans haway.head
  · exact (congrArg (· + s.removed) haccounts.stored).trans h.balance
  · refine ⟨?_, ?_, ?_, ?_⟩
    · rw [hkeeps.growSize]
      exact h.sized.growSize_pos
    · rw [hkeeps.growSize]
      exact h.sized.growSize_dvd
    · rw [hkeeps.maxSize]
      exact h.sized.maxSize_dvd
    · rw [hkeeps.maxSize]
      exact fun hmax => hkeeps.currentSize.trans (h.sized.bound hmax)
  · exact (h.iterators p hp).trans_eq
      (congrArg SublistPuddle.listCurrent (hkeeps.puddle p (.inr hp))).symm

end Inv

/-- The pool has no room below its maximum size. -/
def AtMaximum (pool : SublistPool P E) : Prop := pool.maxSize ≠ 0 ∧ pool.maxSize ≤ pool.ownedSize

/-- What a pool keeps: the entries added and not removed are stored, the allocation puddle ends
the list, every puddle that the pool owns is in one place, `_currentSize` is their size, and an
allocation fails no assertion and is refused only without memory or at the maximum size. -/
structure Kept (s : System P E T) : Prop where
  entries : s.pool.storedEntries + s.removed = s.added
  lists : ∃ list previous, Listed s.pool list (fun p => p ∈ previous ∨ p ∈ s.processed) ∧
    Away s.pool previous s.processed
  size : s.pool.currentSize = s.pool.ownedSize
  allocate : ∀ t memory, (∀ p, memory = some p → p ∉ s.pool.allocated) →
    ∃ done pool' fragment, s.pool.allocate (s.fragment t) memory = some (done, pool', fragment) ∧
      (done = false → memory = none ∨ AtMaximum s.pool)
  allocateElement : ∀ memory, (∀ p, memory = some p → p ∉ s.pool.allocated) →
    (s.pool.allocateElementNoContention memory).1 = none → memory = none ∨ AtMaximum s.pool

omit [DecidableEq T] in
theorem Inv.kept {s : System P E T} (h : Inv s) : Kept s := by
  have hsize : s.pool.currentSize = s.pool.ownedSize := h.accounts.size
  refine ⟨h.balance, h.lists, hsize, fun t memory hmemory => ?_, fun memory hmemory hnone => ?_⟩
  · obtain ⟨list, previous, hlisted, -⟩ := h.lists
    obtain ⟨slots, hslots, hfragment⟩ := h.fragments.size t
    rcases hlisted.allocate h.accounts h.sized hslots hfragment hmemory with
      ⟨hfalse, hwhy⟩ | ⟨pool', p, current, top, htrue, -⟩
    · rw [hsize] at hwhy
      exact ⟨_, _, _, hfalse, fun _ => hwhy⟩
    · exact ⟨_, _, _, htrue, fun heq => by cases heq⟩
  · obtain ⟨list, previous, hlisted, -⟩ := h.lists
    rcases hlisted.allocateElement h.accounts h.sized hmemory with
      ⟨-, hwhy⟩ | ⟨pool', p, slot, hsome, -⟩
    · rwa [hsize] at hwhy
    · rw [hsome] at hnone
      cases hnone

/-- No puddle of the list is empty. -/
def NoneEmpty (pool : SublistPool P E) : Prop :=
  ∀ list, ForwardLinked pool.next none list → pool.list = list.head? →
    ∀ p ∈ list, (pool.puddle p).isEmpty = false

omit [DecidableEq T] in
/-- A compaction keeps what it should exactly when it meets no empty puddle. -/
theorem Inv.compact_kept_iff {s : System P E T} (h : Inv s) (hflushed : ∀ t, ¬ (s.fragment t).Open) :
    ∃ pool', s.pool.compact = some pool' ∧
      (NoneEmpty s.pool → Inv { s with pool := pool' }) ∧
      (pool'.currentSize = pool'.ownedSize → NoneEmpty s.pool) := by
  obtain ⟨pool', list, hcompact, hlinked, hhead, hsize, hinv⟩ := h.compact hflushed
  refine ⟨pool', hcompact, fun hnone => hinv ?_, fun heq list' hlinked' hhead' p hp => ?_⟩
  · refine List.sum_eq_zero fun n hn => ?_
    obtain ⟨p, hp, rfl⟩ := List.mem_map.1 hn
    rw [emptySize, hnone list hlinked hhead p hp]
    rfl
  · obtain rfl : list = list' := hlinked.eq_of_head hlinked' (hhead.symm.trans hhead')
    have hzero : (list.map (emptySize s.pool)).sum = 0 := by omega
    have hp0 := List.sum_eq_zero_iff.1 hzero _ (List.mem_map_of_mem hp)
    obtain ⟨list₁, previous, hlisted, -⟩ := h.lists
    obtain rfl : list = list₁ := hlinked.eq_of_head hlisted.linked (hhead.symm.trans hlisted.head)
    have hpos := (h.accounts.valid p ((hlisted.allocated p).2 (.inl hp))).size_pos
    cases hempty : (s.pool.puddle p).isEmpty with
    | false => rfl
    | true =>
      rw [emptySize, hempty, if_pos rfl] at hp0
      omega

/-- The operations other than `compact`. -/
theorem Inv.exec_other {s : System P E T} (h : Inv s) {op : Op P E T} (hop : Permitted s op)
    (hne : op ≠ .compact) : ∃ s', exec s op = some s' ∧ Inv s' := by
  cases op with
  | add t entry memory => exact h.add t entry hop
  | allocateMemoryForSublistFragment t memory => exact h.refill t hop
  | flush t => exact ⟨_, rfl, h.flush t⟩
  | addElement entry memory => exact ⟨_, rfl, h.addElement entry hop⟩
  | startProcessingSublist =>
    obtain ⟨pool', hstart, hinv⟩ := h.startProcessing hop
    exact ⟨_, congrArg (Option.map _) hstart, hinv⟩
  | popPreviousPuddle returnedPuddle => exact h.popPreviousPuddle hop
  | nextSlot puddle => exact ⟨_, rfl, h.nextSlot hop⟩
  | removeSlot puddle => exact ⟨_, rfl, h.removeSlot hop.1 hop.2.1 hop.2.2⟩
  | compact => exact absurd rfl hne
  | clear =>
    obtain ⟨pool', hclear, hinv⟩ := h.clear hop.1 hop.2
    exact ⟨_, congrArg (Option.map _) hclear, hinv⟩

def PermittedRun : System P E T → List (Op P E T) → Prop
  | _, [] => True
  | s, op :: ops => Permitted s op ∧ ∀ s', exec s op = some s' → PermittedRun s' ops

/-- Each operation of a run returns and keeps what it should. -/
def KeptRun : System P E T → List (Op P E T) → Prop
  | _, [] => True
  | s, op :: ops => ∃ s', exec s op = some s' ∧ Kept s' ∧ KeptRun s' ops

/-- No compaction of a run meets an empty puddle. -/
def MeetsRun : System P E T → List (Op P E T) → Prop
  | _, [] => True
  | s, op :: ops => (op = .compact → NoneEmpty s.pool) ∧
      ∀ s', exec s op = some s' → MeetsRun s' ops

theorem Inv.keptRun_iff {s : System P E T} (h : Inv s) {ops : List (Op P E T)}
    (hops : PermittedRun s ops) : KeptRun s ops ↔ MeetsRun s ops := by
  induction ops generalizing s with
  | nil => exact Iff.rfl
  | cons op ops ih =>
    obtain ⟨hop, hops⟩ := hops
    -- what the first operation leaves behind decides the rest by the induction hypothesis
    have hrest : ∀ s', exec s op = some s' → Inv s' → (KeptRun s (op :: ops) ↔ MeetsRun s' ops) :=
      fun s' hexec hinv => by
        refine Iff.trans ?_ (ih hinv (hops s' hexec))
        constructor
        · rintro ⟨s'', hexec', -, hrun⟩
          rwa [Option.some.inj (hexec.symm.trans hexec')]
        · exact fun hrun => ⟨s', hexec, hinv.kept, hrun⟩
    have hmeets : ∀ s', exec s op = some s' →
        ((∀ s', exec s op = some s' → MeetsRun s' ops) ↔ MeetsRun s' ops) := fun s' hexec =>
      ⟨fun hall => hall s' hexec, fun hrun s'' hexec' => by
        rwa [← Option.some.inj (hexec.symm.trans hexec')]⟩
    by_cases hcompact : op = .compact
    · subst hcompact
      obtain ⟨pool', hpool, hinv, hnone⟩ := h.compact_kept_iff hop
      have hexec : exec s .compact = some { s with pool := pool' } :=
        congrArg (Option.map _) hpool
      constructor
      · intro hrun
        have hempty : NoneEmpty s.pool := by
          obtain ⟨s', hexec', hkept, -⟩ := hrun
          obtain rfl := Option.some.inj (hexec.symm.trans hexec')
          exact hnone hkept.size
        exact ⟨fun _ => hempty, (hmeets _ hexec).2 ((hrest _ hexec (hinv hempty)).1 hrun)⟩
      · rintro ⟨hempty, hrun⟩
        exact (hrest _ hexec (hinv (hempty rfl))).2 ((hmeets _ hexec).1 hrun)
    · obtain ⟨s', hexec, hinv⟩ := h.exec_other hop hcompact
      rw [hrest s' hexec hinv, ← hmeets s' hexec]
      exact ⟨fun hrun => ⟨fun heq => absurd heq hcompact, hrun⟩, fun hrun => hrun.2⟩

omit [DecidableEq P] [DecidableEq T] in
theorem inv_initialState {growSize maxSize : ℕ} (hpos : 0 < growSize) (hgrow : slotSize ∣ growSize)
    (hmax : slotSize ∣ maxSize) {fragmentSize : T → ℕ}
    (hfragment : ∀ t, 0 < fragmentSize t ∧ slotSize ∣ fragmentSize t) (next : P → Option P)
    (puddle : P → SublistPuddle E) :
    Inv (initialState growSize maxSize fragmentSize next puddle) := by
  refine ⟨⟨[], [], ⟨trivial, rfl, rfl, List.nodup_nil, (fun p hp => by cases hp), fun p => ?_⟩,
    ⟨trivial, rfl, List.nodup_nil, (fun p hp => by cases hp),
      fun p hp => absurd hp (Finset.notMem_empty p)⟩⟩,
    ⟨(fun p hp => absurd hp (Finset.notMem_empty p)), rfl, rfl⟩, rfl,
    ⟨hpos, hgrow, hmax, fun _ => Nat.zero_le _⟩, ⟨fun t => ?_, fun t hopen => ?_, fun t t' _ hopen => ?_⟩,
    fun p hp => absurd hp (Finset.notMem_empty p)⟩
  · simp [initialState, initialized]
  · obtain ⟨hpos, slots, hslots⟩ := hfragment t
    exact ⟨slots, by simp only [slotSize] at hslots; omega, hslots⟩
  · exact absurd hopen (Nat.lt_irrefl 0)
  · exact absurd hopen (Nat.lt_irrefl 0)

/-- In a run of a pool that grows in whole slots, every operation keeps the entries, the lists and
the size exactly when no compaction meets an empty puddle. -/
theorem keptRun_iff_meetsRun {growSize maxSize : ℕ} (hpos : 0 < growSize)
    (hgrow : slotSize ∣ growSize) (hmax : slotSize ∣ maxSize) {fragmentSize : T → ℕ}
    (hfragment : ∀ t, 0 < fragmentSize t ∧ slotSize ∣ fragmentSize t) (next : P → Option P)
    (puddle : P → SublistPuddle E) (ops : List (Op P E T))
    (hops : PermittedRun (initialState growSize maxSize fragmentSize next puddle) ops) :
    KeptRun (initialState growSize maxSize fragmentSize next puddle) ops ↔
      MeetsRun (initialState growSize maxSize fragmentSize next puddle) ops :=
  (inv_initialState hpos hgrow hmax hfragment next puddle).keptRun_iff hops

/-- A pool that may grow to one puddle of two slots. -/
def smallPool : System ℕ ℕ Unit :=
  initialState 16 16 (fun _ => 32) (fun _ => none) fun _ => .initialized 0

/-- One entry is added, scanned and kept, and the pool is compacted. -/
theorem keptRun_one_entry :
    KeptRun smallPool [.addElement 7 (some 0), .startProcessingSublist, .popPreviousPuddle none,
      .nextSlot 0, .popPreviousPuddle (some 0), .compact] := by
  refine (keptRun_iff_meetsRun (by decide) ⟨2, rfl⟩ ⟨2, rfl⟩ (fun _ => ⟨by decide, 4, rfl⟩) _ _ _
    ?_).2 ?_
  · refine ⟨fun p _ => Finset.notMem_empty p, fun s h => ?_⟩
    obtain rfl := Option.some.inj h
    refine ⟨rfl, fun s h => ?_⟩
    obtain rfl := Option.some.inj h
    refine ⟨(fun p h => by cases h), fun s h => ?_⟩
    obtain rfl := Option.some.inj h
    refine ⟨Finset.mem_insert_self 0 _, fun s h => ?_⟩
    obtain rfl := Option.some.inj h
    refine ⟨(fun p h => Option.some.inj h ▸ Finset.mem_insert_self 0 _), fun s h => ?_⟩
    obtain rfl := Option.some.inj h
    exact ⟨fun t h => absurd h (Nat.lt_irrefl 0), fun _ _ => trivial⟩
  · refine ⟨(fun h => by cases h), fun s h => ?_⟩
    obtain rfl := Option.some.inj h
    refine ⟨(fun h => by cases h), fun s h => ?_⟩
    obtain rfl := Option.some.inj h
    refine ⟨(fun h => by cases h), fun s h => ?_⟩
    obtain rfl := Option.some.inj h
    refine ⟨(fun h => by cases h), fun s h => ?_⟩
    obtain rfl := Option.some.inj h
    refine ⟨(fun h => by cases h), fun s h => ?_⟩
    obtain rfl := Option.some.inj h
    refine ⟨fun _ list hlinked hhead p hp => ?_, fun _ _ => trivial⟩
    obtain rfl : [0] = list := ForwardLinked.eq_of_head ⟨rfl, trivial⟩ hlinked hhead
    obtain rfl := List.mem_singleton.1 hp
    decide

/-- The only entry is removed; the size of its puddle stays with the pool, which then refuses to
grow again. -/
theorem compact_loses_size :
    PermittedRun smallPool [.addElement 7 (some 0), .startProcessingSublist,
      .popPreviousPuddle none, .nextSlot 0, .removeSlot 0, .popPreviousPuddle (some 0), .compact] ∧
    ¬ KeptRun smallPool [.addElement 7 (some 0), .startProcessingSublist,
      .popPreviousPuddle none, .nextSlot 0, .removeSlot 0, .popPreviousPuddle (some 0),
      .compact] := by
  constructor
  · refine ⟨fun p _ => Finset.notMem_empty p, fun s h => ?_⟩
    obtain rfl := Option.some.inj h
    refine ⟨rfl, fun s h => ?_⟩
    obtain rfl := Option.some.inj h
    refine ⟨(fun p h => by cases h), fun s h => ?_⟩
    obtain rfl := Option.some.inj h
    refine ⟨Finset.mem_insert_self 0 _, fun s h => ?_⟩
    obtain rfl := Option.some.inj h
    refine ⟨⟨Finset.mem_insert_self 0 _, Nat.one_pos, fun t h => absurd h (Nat.lt_irrefl 0)⟩, fun s h => ?_⟩
    obtain rfl := Option.some.inj h
    refine ⟨(fun p h => Option.some.inj h ▸ Finset.mem_insert_self 0 _), fun s h => ?_⟩
    obtain rfl := Option.some.inj h
    exact ⟨fun t h => absurd h (Nat.lt_irrefl 0), fun _ _ => trivial⟩
  · rintro ⟨s₁, h₁, -, s₂, h₂, -, s₃, h₃, -, s₄, h₄, -, s₅, h₅, -, s₆, h₆, -, s₇, h₇, hkept, -⟩
    obtain rfl := Option.some.inj h₁
    obtain rfl := Option.some.inj h₂
    obtain rfl := Option.some.inj h₃
    obtain rfl := Option.some.inj h₄
    obtain rfl := Option.some.inj h₅
    obtain rfl := Option.some.inj h₆
    obtain rfl := Option.some.inj h₇
    exact absurd hkept.size (by decide)

end System

end OMR.GC.SublistPool
