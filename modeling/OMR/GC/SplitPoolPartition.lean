import OMR.GC.SplitPoolPostProcess

/-!
# How `postProcess` divides the free list

Where `postProcess` splits at entries it cuts a list as soon as it holds its share of the free
bytes, and reserves the first of the largest entries. Hints take no part in this.
-/

namespace OMR.GC.SplitPool

open OMR.Lib

variable {p p' : SplitPool} {l passed rest : List Extent} {i s : ℕ} {e : Extent}

/-- The pool without its hints. -/
def forgetHints (p : SplitPool) : SplitPool :=
  { p with heapFreeLists := fun i => { p.heapFreeLists i with hints := HintCache.initHints } }

theorem forgetHints_noHints (p : SplitPool) : p.forgetHints.NoHints := fun _ => rfl

theorem forgetHints_setList (p : SplitPool) (i : ℕ) (list : FreeList) :
    (p.setList i list).forgetHints =
      p.forgetHints.setList i { list with hints := HintCache.initHints } := by
  have hlists : (fun j => { Function.update p.heapFreeLists i list j with
        hints := HintCache.initHints }) =
      Function.update (fun j => { p.heapFreeLists j with hints := HintCache.initHints }) i
        { list with hints := HintCache.initHints } := by
    funext j
    by_cases hj : j = i
    · subst hj
      rw [Function.update_self, Function.update_self]
    · rw [Function.update_of_ne hj, Function.update_of_ne hj]
  unfold forgetHints setList
  rw [← hlists]

/-- The loop over the entries counts an entry, and reserves it if it is larger than any before. -/
def visit (p : SplitPool) (i : ℕ) (passed : List Extent) (e : Extent) : SplitPool :=
  let p := p.setList i { p.heapFreeLists i with
    freeSize := (p.heapFreeLists i).freeSize + e.size
    freeCount := (p.heapFreeLists i).freeCount + 1 }
  if e.size > p.reservedFreeEntrySize then p.setReserved e.size i (Link.last passed) else p

/-- The loop over the entries cuts a list behind the entries it has passed. -/
def cutBehind (p : SplitPool) (i : ℕ) (passed rest : List Extent) : SplitPool :=
  let p := p.setList i { p.heapFreeLists i with freeList := passed }
  p.setList (i + 1) { p.heapFreeLists (i + 1) with freeList := rest, freeSize := 0, freeCount := 0 }

theorem visit_heapFreeLists (p : SplitPool) (i : ℕ) (passed : List Extent) (e : Extent) :
    (p.visit i passed e).heapFreeLists = (p.setList i { p.heapFreeLists i with
      freeSize := (p.heapFreeLists i).freeSize + e.size
      freeCount := (p.heapFreeLists i).freeCount + 1 }).heapFreeLists := by
  unfold visit
  dsimp only
  split <;> rfl

theorem visit_self (p : SplitPool) (i : ℕ) (passed : List Extent) (e : Extent) :
    (p.visit i passed e).heapFreeLists i = { p.heapFreeLists i with
      freeSize := (p.heapFreeLists i).freeSize + e.size
      freeCount := (p.heapFreeLists i).freeCount + 1 } := by
  rw [visit_heapFreeLists, heapFreeLists_setList_self]

theorem visit_entries (p : SplitPool) (i : ℕ) (passed : List Extent) (e : Extent) (j : ℕ) :
    (p.visit i passed e).entries j = p.entries j := by
  by_cases hj : j = i
  · subst hj
    rw [entries, visit_self, entries]
  · rw [entries, visit_heapFreeLists, heapFreeLists_setList_of_ne _ _ hj, entries]

theorem visit_sameShape (p : SplitPool) (i : ℕ) (passed : List Extent) (e : Extent) :
    SameShape p (p.visit i passed e) := by
  unfold visit
  dsimp only
  split <;> exact ⟨rfl, rfl, rfl⟩

theorem splitEntries_cons (splitSize last : ℕ) (e : Extent) (rest : List Extent) (p : SplitPool)
    (i : ℕ) (passed : List Extent) : splitEntries splitSize last (e :: rest) p i passed =
      if (p.heapFreeLists i).freeSize + e.size ≥ splitSize ∧ i < last then
        splitEntries splitSize last rest ((p.visit i passed e).cutBehind i (passed ++ [e]) rest)
          (i + 1) []
      else splitEntries splitSize last rest (p.visit i passed e) i (passed ++ [e]) := by
  rw [splitEntries, cutBehind, visit_self]
  rfl

theorem forgetHints_visit (p : SplitPool) (i : ℕ) (passed : List Extent) (e : Extent) :
    (p.visit i passed e).forgetHints = p.forgetHints.visit i passed e := by
  unfold visit
  dsimp only
  rw [apply_ite forgetHints]
  refine ite_congr rfl (fun _ => ?_) fun _ => ?_
  · exact congrArg (fun q : SplitPool => q.setReserved e.size i (Link.last passed))
      (forgetHints_setList p i _)
  · exact forgetHints_setList p i _

theorem forgetHints_cutBehind (p : SplitPool) (i : ℕ) (passed rest : List Extent) :
    (p.cutBehind i passed rest).forgetHints = p.forgetHints.cutBehind i passed rest := by
  unfold cutBehind
  dsimp only
  rw [forgetHints_setList]
  have hfirst := forgetHints_setList p i { p.heapFreeLists i with freeList := passed }
  have hnext := congrArg (fun q : SplitPool => q.heapFreeLists (i + 1)) hfirst
  rw [hfirst]
  congr 1
  exact congrArg (fun list : FreeList =>
    { list with freeList := rest, freeSize := 0, freeCount := 0 }) hnext

/-- The loop over the entries does not look at the hints. -/
theorem splitEntries_forgetHints (splitSize last : ℕ) (rest : List Extent) (p : SplitPool) (i : ℕ)
    (passed : List Extent) : (splitEntries splitSize last rest p i passed).forgetHints =
      splitEntries splitSize last rest p.forgetHints i passed := by
  induction rest generalizing p i passed with
  | nil => rfl
  | cons e rest ih =>
    rw [splitEntries_cons, splitEntries_cons, apply_ite forgetHints, ih, ih, forgetHints_cutBehind,
      forgetHints_visit]
    rfl

theorem splitEntries_count (splitSize last : ℕ) (rest : List Extent) (p : SplitPool) (i : ℕ)
    (passed : List Extent) :
    (splitEntries splitSize last rest p i passed).heapFreeListCount = p.heapFreeListCount := by
  induction rest generalizing p i passed with
  | nil => rfl
  | cons e rest ih =>
    rw [splitEntries_cons]
    split
    · exact (ih _ _ _).trans (visit_sameShape p i passed e).count
    · exact (ih _ _ _).trans (visit_sameShape p i passed e).count

/-- The reserved entry is the first of the largest entries that the loop has passed, and the pool
knows it by the entry before it on its list. -/
structure FirstLargest (p : SplitPool) (i : ℕ) (passed : List Extent) (k : ℕ) (xs : List Extent)
    (e : Extent) (ys : List Extent) : Prop where
  index_le : k ≤ i
  avaliable : p.reservedFreeEntryAvaliable = true
  index : p.reservedFreeListIndex = k
  previous : p.previousReservedFreeEntry = Link.last xs
  size : p.reservedFreeEntrySize = e.size
  seen : (if k = i then passed else p.entries k) = xs ++ e :: ys
  before_lt : ∀ x ∈ (List.range k).flatMap p.entries ++ xs, x.size < e.size
  size_le : ∀ x ∈ (List.range i).flatMap p.entries ++ passed, x.size ≤ e.size

/-- The loop over the entries with what it has achieved so far. -/
structure Partitioning (s : ℕ) (l : List Extent) (p : SplitPool) (i : ℕ)
    (passed rest : List Extent) : Prop where
  splitting : Splitting l p i passed rest
  full : ∀ j < i, s ≤ totalSize (p.entries j)
  first : (i = 0 ∧ passed = [] ∧ p.reservedFreeEntrySize = 0) ∨
    ∃ k xs e ys, FirstLargest p i passed k xs e ys

/-- The larger one of an entry and the reserved entry is reserved, the reserved one if both have
the same size. -/
theorem Partitioning.visit (h : Partitioning s l p i passed (e :: rest)) (hpos : 0 < e.size) :
    ∃ k xs x ys, FirstLargest (p.visit i passed e) i (passed ++ [e]) k xs x ys := by
  have hentries := visit_entries p i passed e
  have hflat : ∀ n, (List.range n).flatMap (p.visit i passed e).entries =
      (List.range n).flatMap p.entries := fun n => List.flatMap_congr fun j _ => hentries j
  by_cases hlarger : e.size > p.reservedFreeEntrySize
  · have hvisit : p.visit i passed e = (p.setList i { p.heapFreeLists i with
        freeSize := (p.heapFreeLists i).freeSize + e.size
        freeCount := (p.heapFreeLists i).freeCount + 1 }).setReserved e.size i (Link.last passed) :=
      if_pos hlarger
    have hlt : ∀ x ∈ (List.range i).flatMap p.entries ++ passed, x.size < e.size := by
      intro x hx
      rcases h.first with ⟨rfl, rfl, -⟩ | ⟨k, xs, a, ys, hfirst⟩
      · cases hx
      · exact (hfirst.size_le x hx).trans_lt (hfirst.size ▸ hlarger)
    refine ⟨i, passed, e, [], le_rfl, by rw [hvisit]; rfl, by rw [hvisit]; rfl, by rw [hvisit]; rfl,
      by rw [hvisit]; rfl, if_pos rfl, ?_, ?_⟩
    · rw [hflat]
      exact hlt
    · rw [hflat, ← List.append_assoc]
      intro x hx
      rcases List.mem_append.1 hx with hx | hx
      · exact (hlt x hx).le
      · rw [List.mem_singleton.1 hx]
  · have hvisit : p.visit i passed e = p.setList i { p.heapFreeLists i with
        freeSize := (p.heapFreeLists i).freeSize + e.size
        freeCount := (p.heapFreeLists i).freeCount + 1 } := if_neg hlarger
    rcases h.first with ⟨-, -, hzero⟩ | ⟨k, xs, a, ys, hfirst⟩
    · exact absurd (show e.size > p.reservedFreeEntrySize by omega) hlarger
    have hle : e.size ≤ a.size := hfirst.size ▸ Nat.le_of_not_lt hlarger
    have hseen : (if k = i then passed ++ [e] else (p.visit i passed e).entries k) =
        xs ++ a :: (ys ++ if k = i then [e] else []) := by
      rw [hentries, ← List.cons_append, ← List.append_assoc, ← hfirst.seen]
      split <;> simp
    refine ⟨k, xs, a, _, hfirst.index_le, by rw [hvisit]; exact hfirst.avaliable,
      by rw [hvisit]; exact hfirst.index, by rw [hvisit]; exact hfirst.previous,
      by rw [hvisit]; exact hfirst.size, hseen, ?_, ?_⟩
    · rw [hflat]
      exact hfirst.before_lt
    · rw [hflat, ← List.append_assoc]
      intro x hx
      rcases List.mem_append.1 hx with hx | hx
      · exact hfirst.size_le x hx
      · rw [List.mem_singleton.1 hx]
        exact hle

theorem cutBehind_entries (p : SplitPool) (i : ℕ) (passed rest : List Extent) :
    (p.cutBehind i passed rest).entries i = passed ∧
      ∀ j < i, (p.cutBehind i passed rest).entries j = p.entries j := by
  unfold cutBehind
  dsimp only
  constructor
  · rw [entries_setList_of_ne _ _ (by omega), entries_setList_self]
  · intro j hj
    rw [entries_setList_of_ne _ _ (by omega), entries_setList_of_ne _ _ (by omega)]

theorem FirstLargest.reservedPassed {k : ℕ} {xs ys : List Extent}
    (h : FirstLargest p i passed k xs e ys) : p.ReservedPassed i passed :=
  ⟨k, xs, e, ys, h.index_le, h.avaliable, h.index, h.previous, h.size, h.seen⟩

/-- A full list is cut, and the loop goes on with the next one. -/
theorem Partitioning.cutBehind (h : Partitioning s l p i passed rest)
    (hi : i + 1 < p.heapFreeListCount) (hfull : s ≤ totalSize passed) {k : ℕ} {xs ys : List Extent}
    (hfirst : FirstLargest p i passed k xs e ys) :
    Partitioning s l (p.cutBehind i passed rest) (i + 1) [] rest := by
  obtain ⟨hself, hbefore⟩ := cutBehind_entries p i passed rest
  have hflat : ∀ n ≤ i, (List.range n).flatMap (p.cutBehind i passed rest).entries =
      (List.range n).flatMap p.entries := fun n hn => List.flatMap_congr fun j hj =>
    hbefore j (by have := List.mem_range.1 hj; omega)
  refine ⟨h.splitting.cut hi hfirst.reservedPassed rfl, fun j hj => ?_, Or.inr ⟨k, xs, e, ys, ?_⟩⟩
  · rcases Nat.lt_succ_iff_lt_or_eq.1 hj with hj | rfl
    · rw [hbefore j hj]
      exact h.full j hj
    · rwa [hself]
  have hk := hfirst.index_le
  refine ⟨hk.trans (Nat.le_succ i), hfirst.avaliable, hfirst.index, hfirst.previous, hfirst.size,
    ?_, ?_, ?_⟩
  · rw [if_neg (by omega), ← hfirst.seen]
    split
    · next hki => rw [hki, hself]
    · next hki => exact hbefore k (by omega)
  · rw [hflat k hk]
    exact hfirst.before_lt
  · rw [List.range_succ, List.flatMap_append, hflat i le_rfl, List.flatMap_singleton, hself,
      List.append_nil]
    exact hfirst.size_le

/-- The whole loop over the entries. -/
theorem splitEntries_partitioning (hord : AddressOrdered l) {last : ℕ}
    (h : Partitioning s l p i passed rest) (hlast : last + 1 = p.heapFreeListCount) :
    ∃ i' passed', Partitioning s l (splitEntries s last rest p i passed) i' passed' [] := by
  induction rest generalizing p i passed with
  | nil => exact ⟨i, passed, h⟩
  | cons e rest ih =>
    have hpos : 0 < e.size := by
      refine hord.size_pos e ?_
      rw [← h.splitting.all]
      refine List.mem_flatMap.2 ⟨i, List.mem_range.2 h.splitting.index_lt, ?_⟩
      simp [h.splitting.current]
    obtain ⟨k, xs, x, ys, hfirst⟩ := h.visit hpos
    have hshape := visit_sameShape p i passed e
    have hpass : Partitioning s l (p.visit i passed e) i (passed ++ [e]) rest := by
      refine ⟨h.splitting.pass (visit_heapFreeLists p i passed e) hshape.count hfirst.reservedPassed, ?_,
        Or.inr ⟨k, xs, x, ys, hfirst⟩⟩
      intro j hj
      rw [visit_entries]
      exact h.full j hj
    have hcount : last + 1 = (p.visit i passed e).heapFreeListCount :=
      hlast.trans hshape.count.symm
    rw [splitEntries_cons]
    split
    · next hcut =>
      have hfull : s ≤ totalSize (passed ++ [e]) := by
        rw [totalSize_append, ← h.splitting.freeSize]
        simpa using hcut.1
      exact ih (hpass.cutBehind (by omega) hfull hfirst) hcount
    · exact ih hpass hcount

/-- The free entries are divided into the lists in their order: the lists are counted, all but the
last non-empty one have at least the given share, and the reserved entry is the first of the
largest entries, known by the entry before it on its list. -/
structure Partitioned (s : ℕ) (l : List Extent) (p : SplitPool) : Prop where
  all : p.allEntries = l
  counted : ∀ i < p.heapFreeListCount, p.Counted i
  full : ∀ i < p.heapFreeListCount, (∃ j < p.heapFreeListCount, i < j ∧ p.entries j ≠ []) →
    s ≤ totalSize (p.entries i)
  reserved : l ≠ [] → ∃ i xs e ys, p.Names i xs e ys ∧
    (∀ x ∈ (List.range i).flatMap p.entries ++ xs, x.size < e.size) ∧ ∀ x ∈ l, x.size ≤ e.size

/-- At the end of the loop the entries are divided. -/
theorem Partitioning.partitioned (h : Partitioning s l p i passed []) : Partitioned s l p := by
  have hcurrent : p.entries i = passed := by rw [h.splitting.current, List.append_nil]
  have hflat : p.allEntries = (List.range i).flatMap p.entries ++ passed := by
    obtain ⟨m, hm⟩ := Nat.exists_eq_add_of_lt h.splitting.index_lt
    rw [allEntries, hm, Nat.add_assoc, List.range_add, List.flatMap_append, List.range_succ_eq_map,
      List.map_cons, List.flatMap_cons, Nat.add_zero, hcurrent]
    refine congrArg (fun t => (List.range i).flatMap p.entries ++ t) ?_
    have hlater : ((List.map Nat.succ (List.range m)).map (i + ·)).flatMap p.entries = [] := by
      refine List.flatMap_eq_nil_iff.2 fun j hj => h.splitting.later j ?_
      obtain ⟨k, hk, rfl⟩ := List.mem_map.1 hj
      obtain ⟨n, -, rfl⟩ := List.mem_map.1 hk
      omega
    rw [hlater, List.append_nil]
  refine ⟨h.splitting.all, fun j _ => ?_, fun j _ hlater => ?_, fun hl => ?_⟩
  · by_cases hj : j = i
    · rw [hj, Counted, hcurrent]
      exact ⟨h.splitting.freeSize, h.splitting.freeCount⟩
    · exact h.splitting.counted j hj
  · obtain ⟨j', -, hjj', hne⟩ := hlater
    by_contra hshort
    have hij : i ≤ j := by
      by_contra hlt
      exact hshort (h.full j (by omega))
    exact hne (h.splitting.later j' (by omega))
  · rcases h.first with ⟨rfl, rfl, -⟩ | ⟨k, xs, e, ys, hfirst⟩
    · refine absurd ?_ hl
      rw [← h.splitting.all, hflat]
      rfl
    · refine ⟨k, xs, e, ys, ⟨hfirst.avaliable, hfirst.index, ?_, ?_, hfirst.previous,
        hfirst.size⟩, hfirst.before_lt, ?_⟩
      · exact hfirst.index_le.trans_lt h.splitting.index_lt
      · rw [← hfirst.seen]
        split
        · next hki => rw [hki, hcurrent]
        · rfl
      · rw [← h.splitting.all, hflat]
        exact hfirst.size_le

/-- Pools that differ in hints and thread positions only are divided in the same way. -/
theorem Partitioned.congr (h : Partitioned s l p)
    (hcount : p'.heapFreeListCount = p.heapFreeListCount)
    (hentries : ∀ j, p'.entries j = p.entries j) (hcounted : ∀ j, p.Counted j → p'.Counted j)
    (hnames : ∀ i xs e ys, p.Names i xs e ys → p'.Names i xs e ys) : Partitioned s l p' := by
  have hflat : ∀ n, (List.range n).flatMap p'.entries = (List.range n).flatMap p.entries :=
    fun n => List.flatMap_congr fun j _ => hentries j
  refine ⟨?_, fun j hj => ?_, fun j hj hlater => ?_, fun hl => ?_⟩
  · rw [allEntries, hcount, hflat]
    exact h.all
  · exact hcounted j (h.counted j (hcount ▸ hj))
  · rw [hentries]
    refine h.full j (hcount ▸ hj) ?_
    obtain ⟨j', hj', hlt, hne⟩ := hlater
    exact ⟨j', hcount ▸ hj', hlt, hentries j' ▸ hne⟩
  · obtain ⟨i, xs, e, ys, hname, hlt, hle⟩ := h.reserved hl
    refine ⟨i, xs, e, ys, hnames i xs e ys hname, ?_, hle⟩
    rw [hflat]
    exact hlt

/-- One list holds all entries, and the counters are right. -/
structure Loaded (p : SplitPool) (k : ℕ) (l : List Extent) : Prop where
  count_pos : 0 < p.heapFreeListCount
  ordered : AddressOrdered l
  current : p.entries k = l
  other : ∀ j, j ≠ k → p.entries j = []
  counted : ∀ j, p.Counted j

/-- After a compaction the list is moved to the front. -/
theorem Loaded.moveCompacted {k : ℕ} (h : Loaded p k l) (hk : k ≠ 0)
    (hlast : k = p.heapFreeListCount - 1) : Loaded p.moveCompacted 0 l := by
  subst hlast
  generalize hq : p.moveCompacted = q
  have hlast : q.heapFreeLists (p.heapFreeListCount - 1) =
      { p.heapFreeLists (p.heapFreeListCount - 1) with
        freeList := [], freeCount := 0, freeSize := 0 } := by
    rw [← hq, SplitPool.moveCompacted]
    exact heapFreeLists_setList_self ..
  have hfirst : q.heapFreeLists 0 = { p.heapFreeLists 0 with
      freeList := (p.heapFreeLists (p.heapFreeListCount - 1)).freeList
      freeCount := (p.heapFreeLists (p.heapFreeListCount - 1)).freeCount
      freeSize := (p.heapFreeLists (p.heapFreeListCount - 1)).freeSize } := by
    rw [← hq, SplitPool.moveCompacted]
    exact (heapFreeLists_setList_of_ne _ _ (Ne.symm hk)).trans (heapFreeLists_setList_self ..)
  have hother : ∀ j, j ≠ 0 → j ≠ p.heapFreeListCount - 1 →
      q.heapFreeLists j = p.heapFreeLists j := by
    intro j hj hj'
    rw [← hq, SplitPool.moveCompacted]
    exact (heapFreeLists_setList_of_ne _ _ hj').trans (heapFreeLists_setList_of_ne _ _ hj)
  have hcount : q.heapFreeListCount = p.heapFreeListCount := by
    rw [← hq]
    rfl
  refine ⟨hcount ▸ h.count_pos, h.ordered, ?_, fun j hj => ?_, fun j => ?_⟩
  · rw [entries, hfirst]
    exact h.current
  · by_cases hj' : j = p.heapFreeListCount - 1
    · rw [hj', entries, hlast]
    · rw [entries, hother j hj hj']
      exact h.other j hj'
  · by_cases hj' : j = p.heapFreeListCount - 1
    · rw [hj', Counted, entries, hlast]
      exact ⟨rfl, rfl⟩
    · by_cases hj0 : j = 0
      · rw [hj0, Counted, entries, hfirst]
        exact h.counted (p.heapFreeListCount - 1)
      · rw [Counted, entries, hother j hj0 hj']
        exact h.counted j

theorem Loaded.allEntries_eq (h : Loaded p 0 l) : p.allEntries = l := by
  obtain ⟨n, hn⟩ := Nat.exists_eq_succ_of_ne_zero h.count_pos.ne'
  rw [allEntries, hn, List.range_succ_eq_map, List.flatMap_cons, h.current,
    List.flatMap_eq_nil_iff.2 fun j hj => ?_, List.append_nil]
  obtain ⟨k, -, rfl⟩ := List.mem_map.1 hj
  exact h.other _ (Nat.succ_ne_zero k)

/-- The split at entries divides the entries of the first list. -/
theorem Loaded.splitAtEntries (h : Loaded p 0 l) :
    Partitioned (totalSize l / p.heapFreeListCount) l p.resetReservedFreeEntry.splitAtEntries := by
  generalize hr : p.resetReservedFreeEntry = r
  have hload : Loaded r 0 l := by
    rw [← hr]
    exact ⟨h.count_pos, h.ordered, h.current, h.other, h.counted⟩
  have hzero : r.reservedFreeEntrySize = 0 := by
    rw [← hr]
    rfl
  have hcount : r.heapFreeListCount = p.heapFreeListCount := by
    rw [← hr]
    rfl
  -- The loop begins with the counters of the first list at zero.
  generalize hstart : r.setList 0 { r.heapFreeLists 0 with freeSize := 0, freeCount := 0 } = start
  have hself : start.heapFreeLists 0 = { r.heapFreeLists 0 with freeSize := 0, freeCount := 0 } := by
    rw [← hstart, heapFreeLists_setList_self]
  have hother : ∀ j, j ≠ 0 → start.heapFreeLists j = r.heapFreeLists j := by
    intro j hj
    rw [← hstart, heapFreeLists_setList_of_ne _ _ hj]
  have hentries : ∀ j, start.entries j = r.entries j := by
    intro j
    by_cases hj : j = 0
    · rw [hj, entries, hself, entries]
    · rw [entries, hother j hj, entries]
  have hshape : start.heapFreeListCount = r.heapFreeListCount ∧ start.reservedFreeEntrySize = 0 := by
    rw [← hstart]
    exact ⟨rfl, hzero⟩
  have hsplitting : Splitting l start.forgetHints 0 [] l := by
    refine ⟨hshape.1 ▸ hload.count_pos, ?_, ?_, fun j hj => ?_, fun j hj => ?_, ?_, ?_,
      Or.inl ⟨rfl, rfl, hshape.2⟩, start.forgetHints_noHints⟩
    · exact (allEntries_congr hshape.1 hentries).trans hload.allEntries_eq
    · exact (hentries 0).trans hload.current
    · exact (hentries j).trans (hload.other j hj.ne')
    · have hcounted : start.Counted j := by
        rw [Counted, entries, hother j hj]
        exact hload.counted j
      exact hcounted
    · exact congrArg FreeList.freeSize hself
    · exact congrArg FreeList.freeCount hself
  have hbegin : Partitioning (totalSize l / p.heapFreeListCount) l start.forgetHints 0 [] l :=
    ⟨hsplitting, fun j hj => absurd hj (Nat.not_lt_zero j), Or.inl ⟨rfl, rfl, hshape.2⟩⟩
  obtain ⟨i, passed, hend⟩ := splitEntries_partitioning h.ordered hbegin
    ((Nat.sub_add_cancel hload.count_pos).trans hshape.1.symm)
  have hsplit : r.splitAtEntries = splitEntries (totalSize l / p.heapFreeListCount)
      (r.heapFreeListCount - 1) l start 0 [] := by
    rw [SplitPool.splitAtEntries, hstart, (hload.counted 0).1, hload.current, hcount]
    exact congrArg (fun list => splitEntries _ _ list start 0 []) hload.current
  rw [hsplit]
  rw [← splitEntries_forgetHints] at hend
  exact hend.partitioned.congr rfl (fun _ => rfl) (fun _ hcounted => hcounted)
    fun _ _ _ _ hn => ⟨hn.avaliable, hn.index, hn.index_lt, hn.entries_eq, hn.previous, hn.size⟩

/-- The assertions at the end of `postProcess` hold of a divided list. -/
theorem Partitioned.finish (h : Partitioned s l p) (hord : AddressOrdered l) (hl : l ≠ []) :
    ∃ p', p.finishPostProcess = some p' ∧ p'.heapFreeListCount = p.heapFreeListCount ∧
      Partitioned s l p' := by
  obtain ⟨i, us, e, vs, hn, -⟩ := h.reserved hl
  generalize hp' : ({ p with
    currentThreadFreeList := fun i =>
      if i < p.heapFreeListCount then i else p.currentThreadFreeList i } : SplitPool) = p'
  have hn' : p'.Names i us e vs := by
    rw [← hp']
    exact ⟨hn.avaliable, hn.index, hn.index_lt, hn.entries_eq, hn.previous, hn.size⟩
  have hparts : Partitioned s l p' := by
    rw [← hp']
    exact h.congr rfl (fun _ => rfl) (fun _ hcounted => hcounted)
      fun _ _ _ _ hn => ⟨hn.avaliable, hn.index, hn.index_lt, hn.entries_eq, hn.previous, hn.size⟩
  have hlists := (ordered_of_allEntries (hparts.all ▸ hord)).1
  have hget : p'.getReservedFreeEntry = some (e :: vs) := by
    have hnext := (p'.heapFreeLists i).next_last (hlists i hn'.index_lt) hn'.entries_eq
    rw [getReservedFreeEntry, if_pos hn'.avaliable, hn'.index, if_pos hn'.index_lt, hn'.previous,
      hnext]
    exact if_pos hn'.size.symm
  have hfinish : p.finishPostProcess = if p'.reservedFreeEntryAvaliable = false then none
      else if 0 < p'.reservedFreeEntrySize then p'.getReservedFreeEntry.map fun _ => p'
      else some p' := by
    rw [← hp']
    rfl
  refine ⟨p', ?_, by rw [← hp'], hparts⟩
  rw [hfinish, if_neg (by rw [hn'.avaliable]; simp), hget]
  split <;> rfl

/-- `postProcess` for another cause than a sweep returns, and divides the free list. -/
theorem postProcess_partitions {cause : Cause} (sweep : SweepPoolState)
    (hcause : cause ≠ .forSweep) (h : Loaded p (cause.list p.heapFreeListCount) l) :
    ∃ p', p.postProcess cause sweep = some p' ∧ p'.heapFreeListCount = p.heapFreeListCount ∧
      Partitioned (totalSize l / p.heapFreeListCount) l p' := by
  rw [postProcess]
  dsimp only
  generalize hq : (if cause = .forCompact ∧ p.heapFreeListCount - 1 ≠ 0 then p.moveCompacted
    else p) = q
  have hcount : q.heapFreeListCount = p.heapFreeListCount := by
    rw [← hq]
    split <;> rfl
  have hload : Loaded q 0 l := by
    rw [← hq]
    split
    · next hmoved =>
      obtain ⟨rfl, hne⟩ := hmoved
      exact h.moveCompacted hne rfl
    · next hstays =>
      have hzero : cause.list p.heapFreeListCount = 0 := by
        cases cause with
        | forCompact => simpa [Cause.list] using hstays
        | forSweep => rfl
        | any => rfl
      exact hzero ▸ h
  rw [hload.current]
  split
  · next hnil =>
    refine ⟨q, rfl, hcount, hload.allEntries_eq, fun i _ => hload.counted i, fun i _ hlater => ?_,
      fun hne => absurd hnil hne⟩
    obtain ⟨j, -, -, hne⟩ := hlater
    by_cases hj : j = 0
    · rw [hj, hload.current] at hne
      exact absurd hnil hne
    · exact absurd (hload.other j hj) hne
  · next hl =>
    have hparts := hload.splitAtEntries
    rw [hcount] at hparts
    obtain ⟨p', hrun, hshape, hend⟩ := hparts.finish h.ordered hl
    refine ⟨p', hrun, ?_, hend⟩
    rw [hshape, SplitPool.splitAtEntries, splitEntries_count]
    exact hcount

/-- Two lists, the last of which holds what a compaction has left. -/
def compactedPool : SplitPool where
  minimumFreeEntrySize := 512
  heapFreeListCount := 2
  heapFreeLists := fun i =>
    if i = 1 then ⟨[⟨4096, 512⟩, ⟨8192, 1024⟩, ⟨16384, 1024⟩], 2560, 3, 0, HintCache.initHints⟩
    else ⟨[], 0, 0, 0, HintCache.initHints⟩
  currentThreadFreeList := id
  reservedFreeEntrySize := 0
  previousReservedFreeEntry := .udataMax
  reservedFreeListIndex := 2
  reservedFreeEntryAvaliable := false
  largestFreeEntry := 0
  allocCount := 0
  allocBytes := 0
  allocSearchCount := 0
  allocDiscardedBytes := 0

theorem compactedPool_loaded :
    Loaded compactedPool 1 [⟨4096, 512⟩, ⟨8192, 1024⟩, ⟨16384, 1024⟩] := by
  refine ⟨by decide, by decide, rfl, fun j hj => ?_, fun j => ?_⟩
  · rw [entries, compactedPool]
    exact congrArg FreeList.freeList (if_neg hj)
  · by_cases hj : j = 1
    · rw [hj]
      exact ⟨rfl, rfl⟩
    · rw [Counted, entries, compactedPool]
      dsimp only
      rw [if_neg hj]
      exact ⟨rfl, rfl⟩

theorem postProcess_partitions_compactedPool :
    ∃ p', compactedPool.postProcess .forCompact ⟨0, 0, 0, .null, []⟩ = some p' ∧
      p'.heapFreeListCount = 2 ∧
      Partitioned 1280 [⟨4096, 512⟩, ⟨8192, 1024⟩, ⟨16384, 1024⟩] p' :=
  postProcess_partitions ⟨0, 0, 0, .null, []⟩ (show Cause.forCompact ≠ .forSweep by decide)
    compactedPool_loaded

end OMR.GC.SplitPool
