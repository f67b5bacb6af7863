import OMR.GC.SublistPoolCompact

/-!
# Allocation from a sublist pool

Both ways to allocate take slots of the last puddle into use, or of a new puddle that is
then linked to the list.
-/

namespace OMR.GC.SublistPool

open OMR.Lib

variable {P E : Type*} {pool pool' : SublistPool P E} {list : List P}
  {others : P → Prop} {stored : Multiset E}

namespace Listed

/-- No puddle follows the allocation puddle. -/
theorem next_allocPuddle (h : Listed pool list others) :
    pool.allocPuddle.bind pool.next = none := by
  rw [h.last]
  obtain rfl | ⟨front, tail, rfl⟩ := list.eq_nil_or_concat'
  · rfl
  · rw [List.getLast?_concat]
    exact (ForwardLinked.append_iff.1 h.linked).2.1

theorem allocPuddle_mem (h : Listed pool list others) {p : P} (hp : pool.allocPuddle = some p) :
    p ∈ list :=
  List.mem_of_getLast? (h.last.symm.trans hp)

variable [DecidableEq P]

/-- A new puddle becomes the last one. -/
theorem concat (h : Listed pool list others) {p : P} (hp : p ∉ pool.allocated)
    (hnext : pool'.next p = none) (hlast : ∀ tail, list.getLast? = some tail → pool'.next tail = some p)
    (hkept : ∀ q ∈ list, list.getLast? ≠ some q → pool'.next q = pool.next q)
    (hhead : pool'.list = pool.list.or (some p)) (halloc : pool'.allocPuddle = some p)
    (hallocated : pool'.allocated = insert p pool.allocated) :
    Listed pool' (list ++ [p]) others := by
  have hnot : p ∉ list := fun hin => hp ((h.allocated p).2 (.inl hin))
  have hother : ¬ others p := fun hin => hp ((h.allocated p).2 (.inr hin))
  refine ⟨?_, ?_, ?_, ?_, ?_, ?_⟩
  · refine ForwardLinked.append_iff.2 ⟨?_, hnext, trivial⟩
    obtain rfl | ⟨front, tail, rfl⟩ := list.eq_nil_or_concat'
    · trivial
    · refine (h.linked.retarget h.nodup List.getLast?_concat (some p)).congr fun q hq => ?_
      by_cases heq : q = tail
      · subst heq
        rw [Function.update_self]
        exact hlast q List.getLast?_concat
      · rw [Function.update_of_ne heq]
        exact hkept q hq (by simpa using Ne.symm heq)
  · rw [hhead, h.head, List.head?_append]
    rfl
  · rw [halloc, List.getLast?_concat]
  · refine List.nodup_append.2 ⟨h.nodup, List.nodup_singleton p, ?_⟩
    rintro a ha b hb rfl
    exact hnot (List.mem_singleton.1 hb ▸ ha)
  · intro q hq
    rcases List.mem_append.1 hq with hq | hq
    · exact h.notOthers q hq
    · rwa [List.mem_singleton.1 hq]
  · intro q
    rw [hallocated, Finset.mem_insert, h.allocated, List.mem_append, List.mem_singleton]
    tauto

end Listed

/-- The slots from `current` to `top` of a puddle are taken into use. -/
structure Granted (pool pool' : SublistPool P E) (others : P → Prop) (p : P) (current top : ℕ) :
    Prop where
  lt : current < top
  mem : p ∈ pool'.allocated
  notOthers : ¬ others p
  subset : pool.allocated ⊆ pool'.allocated
  listCurrent : (pool'.puddle p).listCurrent = top
  clear : ∀ i, current ≤ i → (pool'.puddle p).store.getD i none = none
  same : p ∈ pool.allocated →
    (pool.puddle p).listCurrent = current ∧ (pool'.puddle p).store = (pool.puddle p).store
  puddle : ∀ q ∈ pool.allocated, q ≠ p → pool'.puddle q = pool.puddle q
  next : ∀ q, others q → pool'.next q = pool.next q
  growSize : pool'.growSize = pool.growSize
  maxSize : pool'.maxSize = pool.maxSize
  previousList : pool'.previousList = pool.previousList

/-- The pool can grow in whole slots. -/
structure Sized (pool : SublistPool P E) : Prop where
  growSize_pos : 0 < pool.growSize
  growSize_dvd : slotSize ∣ pool.growSize
  maxSize_dvd : slotSize ∣ pool.maxSize
  bound : pool.maxSize ≠ 0 → pool.currentSize ≤ pool.maxSize

theorem Accounts.dvd_currentSize (h : pool.Accounts stored 0) : slotSize ∣ pool.currentSize := by
  rw [h.size, add_zero]
  exact Finset.dvd_sum fun p hp => (h.valid p hp).dvd_size

/-- The size of a new puddle, unless the maximum is reached. -/
theorem Sized.puddleSize_eq (hsized : pool.Sized) (h : pool.Accounts stored 0)
    (hroom : pool.maxSize = 0 ∨ pool.currentSize < pool.maxSize) :
    ∃ size, pool.puddleSize = some size ∧ 0 < size ∧ slotSize ∣ size ∧
      (pool.maxSize ≠ 0 → pool.currentSize + size ≤ pool.maxSize) := by
  have hgrow := hsized.growSize_pos
  by_cases hmax : pool.maxSize = 0
  · refine ⟨pool.growSize, ?_, hgrow, hsized.growSize_dvd, fun hne => absurd hmax hne⟩
    simp [puddleSize, hmax, hgrow.ne']
  · have hlt := hroom.resolve_left hmax
    refine ⟨min (pool.maxSize - pool.currentSize) pool.growSize, ?_, by omega, ?_,
      fun _ => by omega⟩
    · simp only [puddleSize, if_pos hmax]
      exact if_neg (by omega)
    · rcases min_choice (pool.maxSize - pool.currentSize) pool.growSize with heq | heq
      · rw [heq]
        exact Nat.dvd_sub hsized.maxSize_dvd h.dvd_currentSize
      · rw [heq]
        exact hsized.growSize_dvd

/-- A pool at its maximum determines no size. -/
theorem puddleSize_eq_none (hmax : pool.maxSize ≠ 0) (hfull : pool.maxSize ≤ pool.currentSize) :
    pool.puddleSize = none := by
  simp [puddleSize, hmax, Nat.sub_eq_zero_of_le hfull]

/-- What an allocation that succeeds leaves behind. -/
structure Served (pool pool' : SublistPool P E) (others : P → Prop) (stored : Multiset E) (p : P)
    (current top : ℕ) : Prop where
  listed : ∃ list, Listed pool' list others
  accounts : pool'.Accounts stored 0
  sized : pool'.Sized
  granted : Granted pool pool' others p current top

variable [DecidableEq P]

/-- Slots of the allocation puddle are given. -/
theorem Listed.serve_last (h : Listed pool list others) (haccounts : pool.Accounts stored 0)
    (hsized : pool.Sized) {p : P} (hp : pool.allocPuddle = some p) (top : ℕ)
    (hlt : (pool.puddle p).listCurrent < top) (hle : top ≤ (pool.puddle p).store.length) :
    Served pool (pool.setPuddle p { pool.puddle p with listCurrent := top }) others stored p
      (pool.puddle p).listCurrent top := by
  have hmem := h.allocPuddle_mem hp
  have hallocated : p ∈ pool.allocated := (h.allocated p).2 (.inl hmem)
  have hvalid := haccounts.valid p hallocated
  have hself : (pool.setPuddle p { pool.puddle p with listCurrent := top }).puddle p =
      { pool.puddle p with listCurrent := top } := Function.update_self ..
  refine ⟨⟨list, h.linked, h.head, h.last, h.nodup, h.notOthers, h.allocated⟩,
    haccounts.setPuddle_entries hallocated _ (hvalid.advance hlt.le hle) rfl rfl,
    ⟨hsized.growSize_pos, hsized.growSize_dvd, hsized.maxSize_dvd, hsized.bound⟩, hlt, hallocated,
    h.notOthers p hmem, Finset.Subset.refl _, ?_, fun i hi => ?_, fun _ => ⟨rfl, ?_⟩,
    fun q _ hne => Function.update_of_ne hne .., fun _ _ => rfl, rfl, rfl, rfl⟩
  · rw [hself]
  · rw [hself]
    exact hvalid.clear i hi
  · rw [hself]

/-- The pool with a new puddle. -/
def grown (pool : SublistPool P E) (size : ℕ) (p : P) : SublistPool P E :=
  { pool.newInstance size p with currentSize := pool.currentSize + size }

/-- The pool with a new puddle at the end of the list and `top` of its slots in use. -/
def appended (pool : SublistPool P E) (size top : ℕ) (p : P) : SublistPool P E :=
  { pool.grown size p with
    next := match pool.allocPuddle with
      | none => (pool.grown size p).next
      | some tail => Function.update (pool.grown size p).next tail (some p)
    puddle := Function.update (pool.grown size p).puddle p
      { SublistPuddle.initialized size with listCurrent := top }
    list := pool.list.or (some p)
    allocPuddle := some p }

theorem appended_next_tail {size top : ℕ} {p tail : P} (htail : pool.allocPuddle = some tail) :
    (pool.appended size top p).next tail = some p := by
  simp only [appended, htail, Function.update_self]

theorem appended_next_self {size top : ℕ} {p : P} (hp : pool.allocPuddle ≠ some p) :
    (pool.appended size top p).next p = none := by
  cases htail : pool.allocPuddle with
  | none => simp [appended, htail, grown, newInstance]
  | some tail =>
    have hne : p ≠ tail := fun heq => hp (heq ▸ htail)
    simp [appended, htail, grown, newInstance, hne]

theorem appended_next_of_ne {size top : ℕ} {p q : P} (hne : q ≠ p) (hq : pool.allocPuddle ≠ some q) :
    (pool.appended size top p).next q = pool.next q := by
  cases htail : pool.allocPuddle with
  | none => simp [appended, htail, grown, newInstance, hne]
  | some tail =>
    have hne' : q ≠ tail := fun heq => hq (heq ▸ htail)
    simp [appended, htail, grown, newInstance, hne, hne']

/-- Slots of a new puddle are given. -/
theorem Listed.serve_new (h : Listed pool list others) (haccounts : pool.Accounts stored 0)
    (hsized : pool.Sized) {p : P} (hp : p ∉ pool.allocated) {size top : ℕ} (hpos : 0 < size)
    (hdvd : slotSize ∣ size) (hbound : pool.maxSize ≠ 0 → pool.currentSize + size ≤ pool.maxSize)
    (hlt : 0 < top) (hle : slotSize * top ≤ size) :
    Served pool (pool.appended size top p) others stored p 0 top := by
  have hnew := SublistPuddle.initialized_valid (E := E) hpos hdvd
  have hgrown : (pool.grown size p).Accounts stored 0 := haccounts.newInstance hp hpos hdvd
  have hself : (pool.grown size p).puddle p = SublistPuddle.initialized size :=
    Function.update_self ..
  have htop : top ≤ (SublistPuddle.initialized size : SublistPuddle E).store.length := by
    have hsize : slotSize * top ≤
        slotSize * (SublistPuddle.initialized size : SublistPuddle E).store.length :=
      hle.trans_eq hnew.size
    exact Nat.le_of_mul_le_mul_left hsize (by decide)
  have hset := hgrown.setPuddle_entries (Finset.mem_insert_self ..)
    { SublistPuddle.initialized size with listCurrent := top } (hnew.advance hlt.le htop)
    (by rw [hself]) (by rw [hself]; rfl)
  have happended : (pool.appended size top p).puddle p =
      { SublistPuddle.initialized size with listCurrent := top } := Function.update_self ..
  have hnot : p ∉ list := fun hin => hp ((h.allocated p).2 (.inl hin))
  refine ⟨⟨list ++ [p], h.concat hp ?_ ?_ ?_ rfl rfl rfl⟩, ⟨hset.valid, hset.stored, hset.size⟩,
    ⟨hsized.growSize_pos, hsized.growSize_dvd, hsized.maxSize_dvd, hbound⟩, hlt,
    Finset.mem_insert_self .., fun hin => hp ((h.allocated p).2 (.inr hin)),
    Finset.subset_insert .., ?_, fun i _ => ?_, fun hin => absurd hin hp, fun q hq hne => ?_,
    fun q hq => ?_, rfl, rfl, rfl⟩
  · exact appended_next_self fun heq => hnot (h.allocPuddle_mem heq)
  · exact fun tail htail => appended_next_tail (h.last.trans htail)
  · exact fun q hq hlast => appended_next_of_ne (ne_of_mem_of_not_mem hq hnot)
      fun heq => hlast (h.last.symm.trans heq)
  · rw [happended]
  · rw [happended]
    exact hnew.clear i (Nat.zero_le _)
  · exact (Function.update_of_ne hne ..).trans (Function.update_of_ne hne ..)
  · refine appended_next_of_ne ?_ fun heq => h.notOthers q (h.allocPuddle_mem heq) hq
    rintro rfl
    exact hp ((h.allocated q).2 (.inr hq))

/-- Without a new puddle the pool is at its maximum, or the forge has no memory. -/
theorem createNewPuddle_cases (hsized : pool.Sized) (haccounts : pool.Accounts stored 0)
    (memory : Option P) :
    (pool.createNewPuddle memory = none ∧
      (memory = none ∨ pool.maxSize ≠ 0 ∧ pool.maxSize ≤ pool.currentSize)) ∨
    ∃ p size, memory = some p ∧ pool.createNewPuddle memory = some (p, pool.grown size p) ∧
      0 < size ∧ slotSize ∣ size ∧
      (pool.maxSize ≠ 0 → pool.currentSize + size ≤ pool.maxSize) := by
  by_cases hroom : pool.maxSize = 0 ∨ pool.currentSize < pool.maxSize
  · obtain ⟨size, hsize, hpos, hdvd, hbound⟩ := hsized.puddleSize_eq haccounts hroom
    cases memory with
    | none => exact .inl ⟨by simp only [createNewPuddle, hsize], .inl rfl⟩
    | some p =>
      refine .inr ⟨p, size, rfl, ?_, hpos, hdvd, hbound⟩
      simp only [createNewPuddle, hsize, grown]
      simp [newInstance, SublistPuddle.totalSize]
  · have hfull : pool.maxSize ≠ 0 ∧ pool.maxSize ≤ pool.currentSize := by omega
    refine .inl ⟨?_, .inr hfull⟩
    simp only [createNewPuddle, puddleSize_eq_none hfull.1 hfull.2]

theorem allocateFrom_eq {p : P} (hvalid : (pool.puddle p).Valid) {fragment : SublistFragment P}
    {slots : ℕ} (hfragment : fragment.fragmentSize = slotSize * slots) :
    pool.allocateFrom p fragment =
      if (pool.puddle p).listCurrent = (pool.puddle p).store.length then none
      else some (pool.setPuddle p { pool.puddle p with
          listCurrent := (pool.puddle p).listCurrent +
            min ((pool.puddle p).store.length - (pool.puddle p).listCurrent) slots },
        { fragment with
          puddle := some p
          fragmentCurrent := (pool.puddle p).listCurrent
          fragmentTop := (pool.puddle p).listCurrent +
            min ((pool.puddle p).store.length - (pool.puddle p).listCurrent) slots }) := by
  simp only [allocateFrom, hfragment, hvalid.allocate_eq]
  split <;> rfl

/-- The new puddle is exposed behind the last one. -/
theorem Listed.exposePuddle (h : Listed pool list others) {p : P} (hp : p ∉ pool.allocated)
    (size top : ℕ) :
    ((pool.grown size p).setPuddle p
      { SublistPuddle.initialized size with listCurrent := top }).exposePuddle p =
        some (pool.appended size top p) := by
  have hself : (pool.grown size p).next p = none := Function.update_self ..
  obtain rfl | ⟨front, tail, rfl⟩ := list.eq_nil_or_concat'
  · have hhead : pool.list = none := h.head
    have hlast : pool.allocPuddle = none := h.last
    simp [SublistPool.exposePuddle, appended, grown, setPuddle, newInstance, hhead, hlast]
  · have hlast : pool.allocPuddle = some tail := h.last.trans List.getLast?_concat
    have hne : tail ≠ p := fun heq => hp ((h.allocated p).2 (.inl (by simp [heq])))
    have htail : pool.next tail = none := (ForwardLinked.append_iff.1 h.linked).2.1
    obtain ⟨first, hhead⟩ : ∃ first, pool.list = some first := by
      rw [h.head, List.head?_append]
      cases front <;> exact ⟨_, rfl⟩
    simp [SublistPool.exposePuddle, appended, grown, setPuddle, setNext, newInstance, hhead, hlast,
      hne, hne.symm, htail]

/-- A fragment comes from a new puddle. -/
theorem Listed.allocateFromEmpty (h : Listed pool list others) {p : P} (hp : p ∉ pool.allocated)
    {size slots : ℕ} (hpos : 0 < size) (hdvd : slotSize ∣ size) {fragment : SublistFragment P}
    (hfragment : fragment.fragmentSize = slotSize * slots) :
    (pool.grown size p).allocateFromEmpty p fragment =
      some (true, pool.appended size (min (size / slotSize) slots) p, { fragment with
        puddle := some p
        fragmentCurrent := 0
        fragmentTop := min (size / slotSize) slots }) := by
  have hself : (pool.grown size p).puddle p = SublistPuddle.initialized size :=
    Function.update_self ..
  have hvalid := SublistPuddle.initialized_valid (E := E) hpos hdvd
  have hlength : (SublistPuddle.initialized size : SublistPuddle E).store.length = size / slotSize :=
    List.length_replicate
  have hzero : (SublistPuddle.initialized size : SublistPuddle E).listCurrent = 0 := rfl
  have hne : 0 ≠ size / slotSize := hlength ▸ hvalid.positive.ne
  have hgrown : ((pool.grown size p).puddle p).Valid := by rwa [hself]
  have hallocate := allocateFrom_eq hgrown hfragment
  rw [hself, hzero, hlength, if_neg hne, Nat.sub_zero, Nat.zero_add] at hallocate
  simp only [SublistPool.allocateFromEmpty, hself, hallocate, SublistPuddle.isEmpty, hzero,
    decide_true, if_true, Option.bind_some, h.exposePuddle hp, Option.map_some]

/-- `allocate` fails no assertion; it refuses only when there is no memory or the pool is at its
maximum, and then changes nothing. -/
theorem Listed.allocate (h : Listed pool list others) (haccounts : pool.Accounts stored 0)
    (hsized : pool.Sized) {fragment : SublistFragment P} {slots : ℕ} (hslots : 0 < slots)
    (hfragment : fragment.fragmentSize = slotSize * slots) {memory : Option P}
    (hmemory : ∀ p, memory = some p → p ∉ pool.allocated) :
    (pool.allocate fragment memory = some (false, pool, fragment) ∧
      (memory = none ∨ pool.maxSize ≠ 0 ∧ pool.maxSize ≤ pool.currentSize)) ∨
    ∃ pool' p current top, pool.allocate fragment memory = some (true, pool',
        { fragment with puddle := some p, fragmentCurrent := current, fragmentTop := top }) ∧
      Served pool pool' others stored p current top := by
  by_cases hroom : ∃ p, pool.allocPuddle = some p ∧
      (pool.puddle p).listCurrent ≠ (pool.puddle p).store.length
  · obtain ⟨p, hp, hne⟩ := hroom
    have hvalid := haccounts.valid p ((h.allocated p).2 (.inl (h.allocPuddle_mem hp)))
    have hcurrent := hvalid.current
    refine .inr ⟨_, p, _, _, ?_, h.serve_last haccounts hsized hp
      ((pool.puddle p).listCurrent +
        min ((pool.puddle p).store.length - (pool.puddle p).listCurrent) slots) ?_ ?_⟩
    · simp only [SublistPool.allocate, hp, Option.bind_some, allocateFrom_eq hvalid hfragment,
        if_neg hne]
    · omega
    · omega
  have hbind : pool.allocPuddle.bind (pool.allocateFrom · fragment) = none := by
    cases hp : pool.allocPuddle with
    | none => rfl
    | some p =>
      have hvalid := haccounts.valid p ((h.allocated p).2 (.inl (h.allocPuddle_mem hp)))
      have heq : (pool.puddle p).listCurrent = (pool.puddle p).store.length :=
        not_not.1 fun hne => hroom ⟨p, hp, hne⟩
      rw [Option.bind_some, allocateFrom_eq hvalid hfragment, if_pos heq]
  rcases createNewPuddle_cases hsized haccounts memory with
    ⟨hnone, hwhy⟩ | ⟨p, size, hp, hnew, hpos, hdvd, hbound⟩
  · refine .inl ⟨?_, hwhy⟩
    simp only [SublistPool.allocate, hbind, h.next_allocPuddle, hnone]
  · have hfresh := hmemory p hp
    have hnext : (pool.grown size p).next p = none := Function.update_self ..
    refine .inr ⟨_, p, 0, min (size / slotSize) slots, ?_,
      h.serve_new haccounts hsized hfresh hpos hdvd hbound ?_ ?_⟩
    · simp only [SublistPool.allocate, hbind, h.next_allocPuddle, hnew, hnext, if_true,
        h.allocateFromEmpty hfresh hpos hdvd hfragment]
    · have := Nat.div_pos (Nat.le_of_dvd hpos hdvd) (show 0 < slotSize by decide)
      omega
    · calc slotSize * min (size / slotSize) slots ≤ slotSize * (size / slotSize) :=
            Nat.mul_le_mul_left _ (min_le_left ..)
        _ ≤ size := Nat.mul_div_le ..

/-- An element comes from a new puddle. -/
theorem Listed.allocateElementFrom (h : Listed pool list others) (p : P) {size : ℕ}
    (hpos : 0 < size) (hdvd : slotSize ∣ size) :
    ((pool.grown size p).linkPuddle p).allocateElementFrom p =
      (some (p, 0), pool.appended size 1 p) := by
  have hvalid := SublistPuddle.initialized_valid (E := E) hpos hdvd
  have hself : (pool.grown size p).puddle p = SublistPuddle.initialized size :=
    Function.update_self ..
  have helement : (SublistPuddle.initialized size : SublistPuddle E).allocateElementNoContention =
      some (0, { SublistPuddle.initialized size with listCurrent := 1 }) :=
    hvalid.allocateElement_eq.trans (if_pos hvalid.positive)
  obtain rfl | ⟨front, tail, rfl⟩ := list.eq_nil_or_concat'
  · have hhead : pool.list = none := h.head
    have hlast : pool.allocPuddle = none := h.last
    have hlink : (pool.grown size p).linkPuddle p =
        { pool.grown size p with list := some p } := by
      simp only [linkPuddle, grown, newInstance, hhead, hlast]
    simp only [hlink, SublistPool.allocateElementFrom, hself, helement, appended, hhead, hlast]
    rfl
  · have hlast : pool.allocPuddle = some tail := h.last.trans List.getLast?_concat
    obtain ⟨first, hhead⟩ : ∃ first, pool.list = some first := by
      rw [h.head, List.head?_append]
      cases front <;> exact ⟨_, rfl⟩
    have hlink : (pool.grown size p).linkPuddle p =
        (pool.grown size p).setNext tail (some p) := by
      simp only [linkPuddle, grown, newInstance, setNext, hhead, hlast]
    have hpuddle : ((pool.grown size p).setNext tail (some p)).puddle p =
        SublistPuddle.initialized size := hself
    simp only [hlink, SublistPool.allocateElementFrom, hpuddle, helement, appended, hhead, hlast]
    simp [grown, newInstance, setNext, setPuddle, hhead]

/-- `allocateElementNoContention` gives a slot that is not in use, or refuses as `allocate` does. -/
theorem Listed.allocateElement (h : Listed pool list others) (haccounts : pool.Accounts stored 0)
    (hsized : pool.Sized) {memory : Option P}
    (hmemory : ∀ p, memory = some p → p ∉ pool.allocated) :
    (pool.allocateElementNoContention memory = (none, pool) ∧
      (memory = none ∨ pool.maxSize ≠ 0 ∧ pool.maxSize ≤ pool.currentSize)) ∨
    ∃ pool' p slot, pool.allocateElementNoContention memory = (some (p, slot), pool') ∧
      Served pool pool' others stored p slot (slot + 1) := by
  by_cases hroom : ∃ p, pool.allocPuddle = some p ∧
      (pool.puddle p).listCurrent < (pool.puddle p).store.length
  · obtain ⟨p, hp, hlt⟩ := hroom
    have hvalid := haccounts.valid p ((h.allocated p).2 (.inl (h.allocPuddle_mem hp)))
    refine .inr ⟨_, p, _, ?_, h.serve_last haccounts hsized hp _ (Nat.lt_succ_self _) hlt⟩
    simp only [allocateElementNoContention, hp, Option.bind_some, hvalid.allocateElement_eq,
      if_pos hlt, Option.map_some]
  have hbind : pool.allocPuddle.bind (fun puddle =>
      (pool.puddle puddle).allocateElementNoContention.map fun found => (puddle, found)) = none := by
    cases hp : pool.allocPuddle with
    | none => rfl
    | some p =>
      have hvalid := haccounts.valid p ((h.allocated p).2 (.inl (h.allocPuddle_mem hp)))
      rw [Option.bind_some, hvalid.allocateElement_eq, if_neg fun hlt => hroom ⟨p, hp, hlt⟩]
      rfl
  rcases createNewPuddle_cases hsized haccounts memory with
    ⟨hnone, hwhy⟩ | ⟨p, size, hp, hnew, hpos, hdvd, hbound⟩
  · refine .inl ⟨?_, hwhy⟩
    simp only [allocateElementNoContention, hbind, h.next_allocPuddle, hnone]
  · have hfresh := hmemory p hp
    have hslot : slotSize ≤ size := Nat.le_of_dvd hpos hdvd
    refine .inr ⟨_, p, 0, ?_, h.serve_new haccounts hsized hfresh hpos hdvd hbound Nat.one_pos
      (by rwa [Nat.mul_one])⟩
    simp only [allocateElementNoContention, hbind, h.next_allocPuddle, hnew,
      h.allocateElementFrom p hpos hdvd]

end OMR.GC.SublistPool
