import Mathlib.Tactic
import Mathlib.Data.List.ReduceOption
import Mathlib.Algebra.BigOperators.Group.Finset.Basic
import OMR.GC.SublistPool

/-!
# The contents of puddles

What the operations of a puddle do to its entries, and what follows for the entries and
the sizes of all puddles of a pool.
-/

namespace OMR.GC

variable {P E : Type*}

/-- The entries among the slots of a list. -/
def slotEntries (slots : List (Option E)) : Multiset E := (slots.reduceOption : Multiset E)

/-- The entry of a slot, if it holds one. -/
def slotEntry (slot : Option E) : Multiset E := (slot.toList : Multiset E)

@[simp] theorem slotEntry_none : slotEntry (none : Option E) = 0 := rfl

@[simp] theorem slotEntry_some (entry : E) : slotEntry (some entry) = {entry} := rfl

@[simp] theorem slotEntries_nil : slotEntries ([] : List (Option E)) = 0 := rfl

theorem slotEntries_cons (slot : Option E) (slots : List (Option E)) :
    slotEntries (slot :: slots) = slotEntry slot + slotEntries slots := by
  cases slot with
  | none => simp [slotEntries, slotEntry]
  | some entry => simp [slotEntries, slotEntry]

@[simp] theorem slotEntries_append (slots₁ slots₂ : List (Option E)) :
    slotEntries (slots₁ ++ slots₂) = slotEntries slots₁ + slotEntries slots₂ := by
  simp [slotEntries, List.reduceOption_append]

@[simp] theorem slotEntries_replicate_none (n : ℕ) :
    slotEntries (List.replicate n (none : Option E)) = 0 := by
  simp [slotEntries]

/-- Slots without an entry add nothing. -/
theorem slotEntries_eq_zero {slots : List (Option E)} (h : ∀ slot ∈ slots, slot = none) :
    slotEntries slots = 0 := by
  rw [List.eq_replicate_of_mem h, slotEntries_replicate_none]

theorem slotEntries_set (slots : List (Option E)) {i : ℕ} (hi : i < slots.length)
    (value : Option E) :
    slotEntries (slots.set i value) + slotEntry (slots.getD i none) =
      slotEntries slots + slotEntry value := by
  induction slots generalizing i with
  | nil => cases hi
  | cons slot slots ih =>
    cases i with
    | zero =>
      simp only [List.set_cons_zero, slotEntries_cons, List.getD_cons_zero]
      abel
    | succ i =>
      simp only [List.set_cons_succ, slotEntries_cons, List.getD_cons_succ, add_assoc]
      rw [ih (Nat.lt_of_succ_lt_succ hi)]

namespace SublistPuddle

/-- The entries a puddle stores. -/
def entries (puddle : SublistPuddle E) : Multiset E := slotEntries puddle.store

/-- A puddle that has room for slots, of which none past `_listCurrent` holds an entry. -/
structure Valid (puddle : SublistPuddle E) : Prop where
  positive : 0 < puddle.store.length
  size : puddle.size = slotSize * puddle.store.length
  current : puddle.listCurrent ≤ puddle.store.length
  clear : ∀ i, puddle.listCurrent ≤ i → puddle.store.getD i none = none

theorem initialized_valid {size : ℕ} (hpos : 0 < size) (hdvd : slotSize ∣ size) :
    (initialized size : SublistPuddle E).Valid where
  positive := by
    simpa [initialized, slotSize] using Nat.div_pos (Nat.le_of_dvd hpos hdvd) (by decide)
  size := by simp [initialized, Nat.mul_div_cancel' hdvd]
  current := Nat.zero_le _
  clear i _ := by
    simp only [initialized, List.getD_eq_getElem?_getD, List.getElem?_replicate]
    split <;> rfl

@[simp] theorem initialized_entries (size : ℕ) : (initialized size : SublistPuddle E).entries = 0 :=
  slotEntries_replicate_none _

@[simp] theorem initialized_size (size : ℕ) : (initialized size : SublistPuddle E).size = size := rfl

namespace Valid

variable {puddle source : SublistPuddle E}

theorem size_pos (h : puddle.Valid) : 0 < puddle.size := by
  rw [h.size]
  exact Nat.mul_pos (by decide) h.positive

theorem dvd_size (h : puddle.Valid) : slotSize ∣ puddle.size := ⟨_, h.size⟩

theorem freeSize_eq (h : puddle.Valid) :
    puddle.freeSize = slotSize * (puddle.store.length - puddle.listCurrent) := by
  rw [freeSize, consumedSize, h.size, Nat.mul_sub]

theorem isFull_iff (h : puddle.Valid) :
    puddle.isFull = true ↔ puddle.listCurrent = puddle.store.length := by
  simp only [isFull, consumedSize, h.size, decide_eq_true_eq, slotSize]
  omega

/-- More slots are taken into use. -/
theorem advance (h : puddle.Valid) {current : ℕ} (hle : puddle.listCurrent ≤ current)
    (hcurrent : current ≤ puddle.store.length) : { puddle with listCurrent := current }.Valid where
  positive := h.positive
  size := h.size
  current := hcurrent
  clear i hi := h.clear i (hle.trans hi)

/-- A fragment is given as many slots as it asks for, or the rest. -/
theorem allocate_eq (h : puddle.Valid) (slots : ℕ) :
    puddle.allocate (slotSize * slots) =
      if puddle.listCurrent = puddle.store.length then none
      else some { puddle with listCurrent :=
        puddle.listCurrent + min (puddle.store.length - puddle.listCurrent) slots } := by
  have hzero : puddle.freeSize = 0 ↔ puddle.listCurrent = puddle.store.length := by
    rw [h.freeSize_eq, slotSize]
    have := h.current
    omega
  have hmin : min puddle.freeSize (slotSize * slots) / slotSize =
      min (puddle.store.length - puddle.listCurrent) slots := by
    rw [h.freeSize_eq, Nat.mul_min_mul_left, Nat.mul_div_cancel_left _ (by decide)]
  simp only [allocate, hzero, hmin]

theorem allocateElement_eq (h : puddle.Valid) :
    puddle.allocateElementNoContention =
      if puddle.listCurrent < puddle.store.length then
        some (puddle.listCurrent, { puddle with listCurrent := puddle.listCurrent + 1 })
      else none := by
  have hlt : puddle.consumedSize < puddle.size ↔ puddle.listCurrent < puddle.store.length := by
    rw [consumedSize, h.size]
    exact Nat.mul_lt_mul_left (by decide)
  simp only [allocateElementNoContention, hlt]

/-- A slot in use is written. -/
theorem setSlot (h : puddle.Valid) {slot : ℕ} (hslot : slot < puddle.listCurrent)
    (value : Option E) : (puddle.setSlot slot value).Valid where
  positive := by simpa [SublistPuddle.setSlot] using h.positive
  size := by simpa [SublistPuddle.setSlot] using h.size
  current := by simpa [SublistPuddle.setSlot] using h.current
  clear i hi := by
    have hne : slot ≠ i := (hslot.trans_le hi).ne
    have hclear := h.clear i hi
    simp only [SublistPuddle.setSlot, List.getD_eq_getElem?_getD] at hclear ⊢
    rwa [List.getElem?_set_ne hne]

theorem setSlot_entries (h : puddle.Valid) {slot : ℕ} (hslot : slot < puddle.listCurrent)
    (hclear : puddle.store.getD slot none = none) (entry : E) :
    (puddle.setSlot slot (some entry)).entries = puddle.entries + {entry} := by
  have hset := slotEntries_set puddle.store (hslot.trans_le h.current) (some entry)
  rw [hclear, slotEntry_none, add_zero] at hset
  exact hset

/-- The slot that has been scanned last takes the value of the last slot. -/
theorem removeSlot (h : puddle.Valid) {scanPtr : ℕ} (hpos : 0 < scanPtr)
    (hle : scanPtr ≤ puddle.listCurrent) : (puddle.removeSlot scanPtr).Valid where
  positive := by simpa [SublistPuddle.removeSlot] using h.positive
  size := by simpa [SublistPuddle.removeSlot] using h.size
  current := by
    have := h.current
    simp only [SublistPuddle.removeSlot, List.length_set]
    omega
  clear i hi := by
    simp only [SublistPuddle.removeSlot, List.getD_eq_getElem?_getD] at hi ⊢
    rcases hi.eq_or_lt with rfl | hlt
    · rw [List.getElem?_set_self (by rw [List.length_set]; have := h.current; omega)]
      rfl
    · have hclear := h.clear i (by omega)
      rw [List.getElem?_set_ne hlt.ne, List.getElem?_set_ne (by omega)]
      rwa [List.getD_eq_getElem?_getD] at hclear

theorem removeSlot_entries (h : puddle.Valid) {scanPtr : ℕ} (hpos : 0 < scanPtr)
    (hle : scanPtr ≤ puddle.listCurrent) :
    (puddle.removeSlot scanPtr).entries + slotEntry (puddle.store.getD (scanPtr - 1) none) =
      puddle.entries := by
  have hcurrent := h.current
  have hscan : scanPtr - 1 < puddle.store.length := by omega
  have hlast : puddle.listCurrent - 1 < puddle.store.length := by omega
  have hfirst := slotEntries_set puddle.store hscan (puddle.store.getD (puddle.listCurrent - 1) none)
  have hsecond := slotEntries_set (puddle.store.set (scanPtr - 1)
    (puddle.store.getD (puddle.listCurrent - 1) none)) (by rwa [List.length_set]) none
  -- the last slot still holds its value when it is cleared
  have hkept : (puddle.store.set (scanPtr - 1)
      (puddle.store.getD (puddle.listCurrent - 1) none)).getD (puddle.listCurrent - 1) none =
      puddle.store.getD (puddle.listCurrent - 1) none := by
    simp only [List.getD_eq_getElem?_getD]
    by_cases heq : scanPtr - 1 = puddle.listCurrent - 1
    · rw [heq, List.getElem?_set_self hlast]
      rfl
    · rw [List.getElem?_set_ne heq]
  rw [hkept, slotEntry_none, add_zero] at hsecond
  refine add_right_cancel (b := slotEntry (puddle.store.getD (puddle.listCurrent - 1) none)) ?_
  calc (puddle.removeSlot scanPtr).entries + slotEntry (puddle.store.getD (scanPtr - 1) none) +
        slotEntry (puddle.store.getD (puddle.listCurrent - 1) none)
      = (puddle.removeSlot scanPtr).entries +
          slotEntry (puddle.store.getD (puddle.listCurrent - 1) none) +
          slotEntry (puddle.store.getD (scanPtr - 1) none) := by abel
    _ = _ := by rw [entries, SublistPuddle.removeSlot, hsecond, hfirst, entries]

theorem drop_clear (h : puddle.Valid) {n : ℕ} (hn : puddle.listCurrent ≤ n) :
    ∀ slot ∈ puddle.store.drop n, slot = none := by
  intro slot hslot
  obtain ⟨i, hi⟩ := List.mem_iff_getElem?.1 hslot
  rw [List.getElem?_drop] at hi
  have hclear := h.clear (n + i) (by omega)
  rwa [List.getD_eq_getElem?_getD, hi] at hclear

theorem entries_eq_take (h : puddle.Valid) :
    puddle.entries = slotEntries (puddle.store.take puddle.listCurrent) := by
  conv_lhs => rw [entries, ← List.take_append_drop puddle.listCurrent puddle.store]
  rw [slotEntries_append, slotEntries_eq_zero (h.drop_clear le_rfl), add_zero]

theorem entries_eq_zero (h : puddle.Valid) (hempty : puddle.isEmpty = true) :
    puddle.entries = 0 := by
  have hzero : puddle.listCurrent = 0 := by simpa [isEmpty] using hempty
  rw [h.entries_eq_take, hzero, List.take_zero, slotEntries_nil]

theorem copyCount_eq (h : puddle.Valid) :
    puddle.copyCount source =
      min (puddle.store.length - puddle.listCurrent) source.listCurrent := by
  rw [copyCount, h.freeSize_eq, consumedSize, Nat.mul_min_mul_left,
    Nat.mul_div_cancel_left _ (by decide)]

theorem copyCount_le_current (h : puddle.Valid) :
    puddle.copyCount source ≤ source.listCurrent := by
  rw [h.copyCount_eq]
  exact min_le_right ..

theorem copyCount_le_free (h : puddle.Valid) :
    puddle.listCurrent + puddle.copyCount source ≤ puddle.store.length := by
  have := h.current
  rw [h.copyCount_eq]
  omega

/-- The slots that `merge` copies are as many as it says. -/
theorem copied_length (h : puddle.Valid) (hsource : source.Valid) :
    ((source.store.drop (source.listCurrent - puddle.copyCount source)).take
      (puddle.copyCount source)).length = puddle.copyCount source := by
  have hle : puddle.copyCount source ≤ source.listCurrent := h.copyCount_le_current
  have := hsource.current
  rw [List.length_take, List.length_drop]
  omega

theorem mergeFrom_store_length (h : puddle.Valid) (hsource : source.Valid) :
    (puddle.mergeFrom source).store.length = puddle.store.length := by
  have := h.current
  have hle : puddle.listCurrent + puddle.copyCount source ≤ puddle.store.length :=
    h.copyCount_le_free
  simp only [mergeFrom, List.length_append, h.copied_length hsource, List.length_take,
    List.length_drop]
  omega

theorem mergeFrom (h : puddle.Valid) (hsource : source.Valid) :
    (puddle.mergeFrom source).Valid where
  positive := by
    rw [h.mergeFrom_store_length hsource]
    exact h.positive
  size := by
    rw [h.mergeFrom_store_length hsource]
    exact h.size
  current := by
    rw [h.mergeFrom_store_length hsource]
    exact h.copyCount_le_free
  clear i hi := by
    have hi : puddle.listCurrent + puddle.copyCount source ≤ i := hi
    have hfront : (puddle.store.take puddle.listCurrent ++
        (source.store.drop (source.listCurrent - puddle.copyCount source)).take
          (puddle.copyCount source)).length = puddle.listCurrent + puddle.copyCount source := by
      rw [List.length_append, h.copied_length hsource, List.length_take, min_eq_left h.current]
    have hclear := h.clear i (by omega)
    rw [List.getD_eq_getElem?_getD] at hclear ⊢
    rw [SublistPuddle.mergeFrom, List.getElem?_append_right (by omega), List.getElem?_drop, hfront]
    rwa [Nat.add_sub_cancel' hi]

theorem dropLast (hsource : source.Valid) {n : ℕ} (hn : n ≤ source.listCurrent) :
    (source.dropLast n).Valid where
  positive := by
    have := hsource.current
    have := hsource.positive
    simp only [SublistPuddle.dropLast, List.length_append, List.length_take,
      List.length_replicate, List.length_drop]
    omega
  size := by
    have hlength : (source.dropLast n).store.length = source.store.length := by
      have := hsource.current
      simp only [SublistPuddle.dropLast, List.length_append, List.length_take,
        List.length_replicate, List.length_drop]
      omega
    rw [hlength]
    exact hsource.size
  current := by
    have := hsource.current
    simp only [SublistPuddle.dropLast, List.length_append, List.length_take,
      List.length_replicate, List.length_drop]
    omega
  clear i hi := by
    have hi : source.listCurrent - n ≤ i := hi
    have hcurrent := hsource.current
    have htake : (source.store.take (source.listCurrent - n)).length = source.listCurrent - n := by
      rw [List.length_take]
      omega
    rw [SublistPuddle.dropLast, List.getD_eq_getElem?_getD, List.append_assoc,
      List.getElem?_append_right (by omega), htake]
    by_cases hlt : i - (source.listCurrent - n) < n
    · rw [List.getElem?_append_left (by rwa [List.length_replicate]),
        List.getElem?_replicate_of_lt hlt]
      rfl
    · rw [List.getElem?_append_right (by rw [List.length_replicate]; omega),
        List.length_replicate, List.getElem?_drop]
      have hclear := hsource.clear i (by omega)
      rw [List.getD_eq_getElem?_getD] at hclear
      rwa [show source.listCurrent + (i - (source.listCurrent - n) - n) = i by omega]

/-- `merge` moves entries and loses none. -/
theorem merge_entries (h : puddle.Valid) (hsource : source.Valid) :
    (puddle.mergeFrom source).entries + (source.dropLast (puddle.copyCount source)).entries =
      puddle.entries + source.entries := by
  have hle : puddle.copyCount source ≤ source.listCurrent := h.copyCount_le_current
  have hsplit : source.store.take source.listCurrent =
      source.store.take (source.listCurrent - puddle.copyCount source) ++
        (source.store.drop (source.listCurrent - puddle.copyCount source)).take
          (puddle.copyCount source) := by
    rw [← List.take_add, Nat.sub_add_cancel hle]
  rw [h.entries_eq_take, hsource.entries_eq_take, hsplit]
  simp only [entries, SublistPuddle.mergeFrom, SublistPuddle.dropLast, slotEntries_append,
    slotEntries_replicate_none, slotEntries_eq_zero (h.drop_clear (Nat.le_add_right ..)),
    slotEntries_eq_zero (hsource.drop_clear le_rfl)]
  abel

@[simp] theorem mergeFrom_size : (puddle.mergeFrom source).size = puddle.size := rfl

@[simp] theorem dropLast_size (n : ℕ) : (source.dropLast n).size = source.size := rfl

/-- When the receiver is not filled the source is emptied. -/
theorem dropLast_isEmpty (h : puddle.Valid) (hsource : source.Valid)
    (hfull : (puddle.mergeFrom source).isFull = false) :
    (source.dropLast (puddle.copyCount source)).isEmpty = true := by
  have hnot := mt (h.mergeFrom hsource).isFull_iff.2 (by simp [hfull])
  rw [h.mergeFrom_store_length hsource] at hnot
  have hnot : puddle.listCurrent + puddle.copyCount source ≠ puddle.store.length := hnot
  have := h.current
  rw [h.copyCount_eq] at hnot
  simp only [isEmpty, SublistPuddle.dropLast, h.copyCount_eq, decide_eq_true_eq]
  omega

end Valid

end SublistPuddle

namespace SublistPool

/-- Of a sum over puddles, the term of one that is replaced is exchanged. -/
theorem sum_update {A : Type*} [AddCommMonoid A] [IsLeftCancelAdd A] [DecidableEq P]
    (term : SublistPuddle E → A) (puddle : P → SublistPuddle E) {s : Finset P} {p : P} (hp : p ∈ s)
    (new : SublistPuddle E) :
    ∑ x ∈ s, term (Function.update puddle p new x) + term (puddle p) =
      ∑ x ∈ s, term (puddle x) + term new := by
  have hrest : ∑ x ∈ s.erase p, term (Function.update puddle p new x) =
      ∑ x ∈ s.erase p, term (puddle x) :=
    Finset.sum_congr rfl fun x hx => by rw [Function.update_of_ne (Finset.ne_of_mem_erase hx)]
  rw [← Finset.add_sum_erase s _ hp, ← Finset.add_sum_erase s (fun x => term (puddle x)) hp, hrest,
    Function.update_self]
  abel

variable [DecidableEq P] {pool : SublistPool P E}

/-- The entries that the pool's puddles store. -/
def storedEntries (pool : SublistPool P E) : Multiset E :=
  ∑ puddle ∈ pool.allocated, (pool.puddle puddle).entries

/-- The total size of the puddles that the pool owns. -/
def ownedSize (pool : SublistPool P E) : ℕ :=
  ∑ puddle ∈ pool.allocated, (pool.puddle puddle).totalSize

/-- The puddles of the pool are valid, they store `stored`, and `_currentSize` is their size
and `lost` bytes. -/
structure Accounts (pool : SublistPool P E) (stored : Multiset E) (lost : ℕ) : Prop where
  valid : ∀ puddle ∈ pool.allocated, (pool.puddle puddle).Valid
  stored : pool.storedEntries = stored
  size : pool.currentSize = pool.ownedSize + lost

namespace Accounts

variable {stored : Multiset E} {lost : ℕ} {p : P}

/-- A puddle of the pool is replaced by one of its size. -/
theorem setPuddle (h : pool.Accounts stored lost) (hp : p ∈ pool.allocated) {new : SublistPuddle E}
    (hvalid : new.Valid) (hsize : new.size = (pool.puddle p).size) (added removed : Multiset E)
    (hentries : new.entries + removed = (pool.puddle p).entries + added)
    {stored' : Multiset E} (hstored : stored' + removed = stored + added) :
    (pool.setPuddle p new).Accounts stored' lost where
  valid q hq := by
    by_cases heq : q = p
    · subst heq
      simpa [SublistPool.setPuddle] using hvalid
    · simpa [SublistPool.setPuddle, heq] using h.valid q hq
  stored := by
    have hsum := sum_update SublistPuddle.entries pool.puddle hp new
    refine add_right_cancel (b := (pool.puddle p).entries + removed) ?_
    calc (pool.setPuddle p new).storedEntries + ((pool.puddle p).entries + removed)
        = pool.storedEntries + (new.entries + removed) := by
          rw [← add_assoc, ← add_assoc]
          exact congrArg (· + removed) hsum
      _ = stored' + ((pool.puddle p).entries + removed) := by
          rw [h.stored, hentries, add_left_comm, ← hstored]
          abel
  size := by
    have hsum := sum_update SublistPuddle.totalSize pool.puddle hp new
    have hsame : new.totalSize = (pool.puddle p).totalSize := hsize
    rw [hsame] at hsum
    exact h.size.trans (congrArg (· + lost) (Nat.add_right_cancel hsum).symm)

/-- A puddle moves its pointer or changes its slots, and keeps its entries. -/
theorem setPuddle_entries (h : pool.Accounts stored lost) (hp : p ∈ pool.allocated)
    (new : SublistPuddle E) (hvalid : new.Valid) (hsize : new.size = (pool.puddle p).size)
    (hentries : new.entries = (pool.puddle p).entries) :
    (pool.setPuddle p new).Accounts stored lost :=
  h.setPuddle hp hvalid hsize 0 0 (by rw [hentries]) rfl

/-- A new puddle counts with its size. -/
theorem newInstance (h : pool.Accounts stored lost) (hp : p ∉ pool.allocated) {size : ℕ}
    (hpos : 0 < size) (hdvd : slotSize ∣ size) :
    ({ pool.newInstance size p with
      currentSize := pool.currentSize + size }).Accounts stored lost := by
  have hother : ∀ q ∈ pool.allocated, (pool.newInstance size p).puddle q = pool.puddle q :=
    fun q hq => Function.update_of_ne (ne_of_mem_of_not_mem hq hp) ..
  have hself : (pool.newInstance size p).puddle p = SublistPuddle.initialized size :=
    Function.update_self ..
  constructor
  · intro q hq
    change ((pool.newInstance size p).puddle q).Valid
    rcases Finset.mem_insert.1 hq with rfl | hq
    · rw [hself]
      exact SublistPuddle.initialized_valid hpos hdvd
    · rw [hother q hq]
      exact h.valid q hq
  · change ∑ q ∈ insert p pool.allocated, ((pool.newInstance size p).puddle q).entries = stored
    rw [Finset.sum_insert hp, hself, SublistPuddle.initialized_entries, zero_add,
      Finset.sum_congr rfl fun q hq => by rw [hother q hq]]
    exact h.stored
  · change pool.currentSize + size =
      ∑ q ∈ insert p pool.allocated, ((pool.newInstance size p).puddle q).totalSize + lost
    have hsize : (SublistPuddle.initialized size : SublistPuddle E).totalSize = size := rfl
    rw [Finset.sum_insert hp, hself, hsize,
      Finset.sum_congr rfl fun q hq => by rw [hother q hq], h.size, ownedSize]
    abel

/-- An empty puddle is killed: its size is lost. -/
theorem kill (h : pool.Accounts stored lost) (hp : p ∈ pool.allocated)
    (hempty : (pool.puddle p).isEmpty = true) :
    (pool.kill p).Accounts stored (lost + (pool.puddle p).size) where
  valid q hq := h.valid q (Finset.mem_of_mem_erase hq)
  stored := by
    have hsum := Finset.add_sum_erase pool.allocated (fun q => (pool.puddle q).entries) hp
    rw [(h.valid p hp).entries_eq_zero hempty, zero_add] at hsum
    exact hsum.trans h.stored
  size := by
    have hsum := Finset.add_sum_erase pool.allocated (fun q => (pool.puddle q).totalSize) hp
    have hsize : (pool.puddle p).totalSize = (pool.puddle p).size := rfl
    rw [hsize] at hsum
    change pool.currentSize =
      ∑ q ∈ pool.allocated.erase p, (pool.puddle q).totalSize + (lost + (pool.puddle p).size)
    rw [h.size, ownedSize, ← hsum]
    abel

/-- An empty puddle is taken off the size and killed. -/
theorem killSource (h : pool.Accounts stored lost) (hp : p ∈ pool.allocated)
    (hempty : (pool.puddle p).isEmpty = true) :
    (SublistPool.kill { pool with
      currentSize := pool.currentSize - (pool.puddle p).totalSize } p).Accounts stored lost where
  valid := (h.kill hp hempty).valid
  stored := (h.kill hp hempty).stored
  size := by
    have hsize := (h.kill hp hempty).size
    have htotal : (pool.puddle p).totalSize = (pool.puddle p).size := rfl
    change pool.currentSize - (pool.puddle p).totalSize = (pool.kill p).ownedSize + lost
    change pool.currentSize = _ at hsize
    omega

/-- A puddle is merged into another. -/
theorem merge (h : pool.Accounts stored lost) {source : P} (hp : p ∈ pool.allocated)
    (hsource : source ∈ pool.allocated) (hne : p ≠ source) :
    (pool.merge p source).Accounts stored lost := by
  have hpv := h.valid p hp
  have hsv := h.valid source hsource
  have hmerge := hpv.merge_entries hsv
  have hkept : (pool.setPuddle p ((pool.puddle p).mergeFrom (pool.puddle source))).puddle source =
      pool.puddle source := Function.update_of_ne hne.symm ..
  have hsum : (pool.setPuddle p ((pool.puddle p).mergeFrom (pool.puddle source))).storedEntries +
      (pool.puddle p).entries =
      stored + ((pool.puddle p).mergeFrom (pool.puddle source)).entries := by
    rw [← h.stored]
    exact sum_update SublistPuddle.entries pool.puddle hp _
  -- the receiver has its new entries while the source still has its old ones
  have hfirst := h.setPuddle hp (hpv.mergeFrom hsv) SublistPuddle.Valid.mergeFrom_size
    _ _ (add_comm ..) hsum
  refine hfirst.setPuddle hsource (hsv.dropLast hpv.copyCount_le_current)
    (by rw [hkept, SublistPuddle.Valid.dropLast_size]) _ _ ?_ hsum.symm
  rw [hkept, add_comm, hmerge, add_comm]

end Accounts

end SublistPool

end OMR.GC
