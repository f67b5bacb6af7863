import OMR.GC.PoolFirstFit

/-!
# Hints when memory is given back

A hint is safe if it is stale or names an entry that is no larger than it says.
Allocation keeps every hint safe. Memory that is given back may not: a chunk put in
front of the list can bring a stale hint back, and a range that is fused to an
entry makes the entry larger than its hint says, or moves it away from its hint.
-/

namespace OMR.GC.Pool

open OMR.Lib

/-- A pool, the addresses it has handed out and all addresses that belong to it. -/
structure World where
  pool : Pool
  handedOut : Set ℕ
  memory : Set ℕ

/-- Memory taken from a pool and given to it. -/
inductive Exchange where
  | allocate (sizeInBytesRequired : ℕ)
  | allocateTLH (maximumSizeInBytesRequired : ℕ)
  | recycle (chunk : Extent)
  | expand (range : Extent) (canCoalesce : Bool)

/-- The addresses handed out by `internalAllocate`. -/
def objectBytes (size : ℕ) : Option ℕ → Set ℕ
  | none => ∅
  | some address => Set.Ico address (address + size)

/-- The addresses handed out by `internalAllocateTLH`. -/
def tlhBytes : Option Extent → Set ℕ
  | none => ∅
  | some range => range.bytes

/-- One exchange: only memory that was handed out is recycled, and only memory outside the
pool expands it. -/
inductive Exchanges (w : World) : Exchange → World → Prop where
  | allocate {size : ℕ} {p' : Pool} {r : Option ℕ}
      (hrun : w.pool.internalAllocate size = some (p', r)) :
      Exchanges w (.allocate size) ⟨p', w.handedOut ∪ objectBytes size r, w.memory⟩
  | allocateTLH {maximum : ℕ} {p' : Pool} {r : Option Extent}
      (hrun : w.pool.internalAllocateTLH maximum = some (p', r)) :
      Exchanges w (.allocateTLH maximum) ⟨p', w.handedOut ∪ tlhBytes r, w.memory⟩
  | recycle {chunk : Extent} (hout : chunk.bytes ⊆ w.handedOut) :
      Exchanges w (.recycle chunk)
        ⟨(w.pool.recycleHeapChunk chunk.base chunk.top).1, w.handedOut \ chunk.bytes, w.memory⟩
  | expand {range : Extent} {canCoalesce : Bool} (hout : Disjoint range.bytes w.memory) :
      Exchanges w (.expand range canCoalesce)
        ⟨w.pool.expandWithRange range canCoalesce, w.handedOut, w.memory ∪ range.bytes⟩

/-- The address of the head of the list. -/
def headAddress (p : Pool) : Option ℕ := p.heapFreeList.head?.map Extent.base

/-- The condition on memory that is given back, where it is large enough to be an entry:
stale hints lie below it; an entry that it is fused to the end of is not larger
afterwards than its hints say; and no hint names an entry that it is fused to the
front of. -/
def Exchange.KeepsHints (p : Pool) : Exchange → Prop
  | .allocate _ => True
  | .allocateTLH _ => True
  | .recycle chunk => (p.createFreeEntry chunk.base chunk.top).isSome →
      ∀ hint ∈ p.hints.hintActive, HintCache.isStale p.headAddress hint.heapFreeHeader →
        hint.heapFreeHeader < chunk.base ∨
          (hint.heapFreeHeader = chunk.base ∧ chunk.size ≤ hint.size)
  | .expand range canCoalesce => 0 < range.size → p.minimumFreeEntrySize ≤ range.size →
      ∀ hint ∈ p.hints.hintActive,
        (HintCache.isStale p.headAddress hint.heapFreeHeader →
          hint.heapFreeHeader < range.base) ∧
        (canCoalesce → ∀ e ∈ p.heapFreeList, e.top = range.base →
          e.base = hint.heapFreeHeader → e.size + range.size ≤ hint.size) ∧
        (canCoalesce → (∀ e ∈ p.heapFreeList, e.top ≠ range.base) →
          ∀ e ∈ p.heapFreeList, range.top = e.base → e.base ≠ hint.heapFreeHeader)

instance (p : Pool) (x : Exchange) : Decidable (x.KeepsHints p) :=
  match x with
  | .allocate _ => inferInstanceAs (Decidable True)
  | .allocateTLH _ => inferInstanceAs (Decidable True)
  | .recycle _ => inferInstanceAs (Decidable (_ → ∀ _ ∈ _, _ → _))
  | .expand _ _ => inferInstanceAs (Decidable (_ → _ → ∀ _ ∈ _, _))

/-- The worlds that exchanges reach from a pool without hints, each of which meets `C`. -/
inductive Arises (C : Pool → Exchange → Prop) : World → Prop where
  | start {w : World} (hfresh : Fresh w.pool)
      (hout : Disjoint (bytesOf w.pool.heapFreeList) w.handedOut)
      (hin : bytesOf w.pool.heapFreeList ∪ w.handedOut ⊆ w.memory) : Arises C w
  | step {w w' : World} {x : Exchange} (h : Arises C w) (hcond : C w.pool x)
      (hstep : Exchanges w x w') : Arises C w'

/-- Every hint that `findHint` does not discard names an entry of the list that is no
larger than the hint says. -/
def HintsSafe (p : Pool) : Prop :=
  ∀ hint ∈ p.hints.hintActive, HintCache.isStale p.headAddress hint.heapFreeHeader = false →
    ∃ e ∈ p.heapFreeList, e.base = hint.heapFreeHeader ∧ e.size ≤ hint.size

instance (p : Pool) : Decidable (HintsSafe p) :=
  inferInstanceAs (Decidable (∀ _ ∈ _, _ → _))

/-- A hint lies below the list, or names an entry that is no larger than it says. -/
def SafeHint (list : List Extent) (address hintSize : ℕ) : Prop :=
  (∀ e ∈ list, address < e.base) ∨ ∃ e ∈ list, e.base = address ∧ e.size ≤ hintSize

variable {p p' : Pool} {l xs ys m' next : List Extent} {current x : Extent} {a s : ℕ}

theorem isStale_iff (hord : AddressOrdered p.heapFreeList) :
    HintCache.isStale p.headAddress a = true ↔ ∀ e ∈ p.heapFreeList, a < e.base := by
  unfold headAddress
  cases hlist : p.heapFreeList with
  | nil => simp [HintCache.isStale]
  | cons e rest =>
    rw [hlist] at hord
    obtain ⟨-, -, hafter⟩ := AddressOrdered.cons_iff.1 hord
    simp only [List.head?_cons, Option.map_some, HintCache.isStale, decide_eq_true_eq,
      List.mem_cons, forall_eq_or_imp]
    refine ⟨fun h => ⟨h, fun b hb => ?_⟩, And.left⟩
    have := hafter b hb
    simp only [Extent.top] at this
    omega

/-- With an ordered list, safe hints are the ones `HintsSafe` asks for. -/
theorem hintsSafe_iff (hord : AddressOrdered p.heapFreeList) :
    HintsSafe p ↔ p.hints.All (SafeHint p.heapFreeList) := by
  refine forall₂_congr fun hint _ => ?_
  rw [SafeHint, ← isStale_iff hord]
  cases HintCache.isStale p.headAddress hint.heapFreeHeader <;> simp

theorem SafeHint.shrink (h : SafeHint (l ++ current :: next) a s) (hne : a ≠ current.base)
    (hin : ∀ e ∈ m', e.Within current) : SafeHint (l ++ (m' ++ next)) a s := by
  rcases h with hstale | ⟨e, he, hea, hes⟩
  · refine Or.inl fun e he => ?_
    simp only [List.mem_append] at he
    rcases he with he | he | he
    · exact hstale e (by simp [he])
    · exact (hstale current (by simp)).trans_le (hin e he).1
    · exact hstale e (by simp [he])
  · refine Or.inr ⟨e, ?_, hea, hes⟩
    simp only [List.mem_append, List.mem_cons] at he ⊢
    rcases he with he | rfl | he
    · exact Or.inl he
    · exact absurd hea.symm hne
    · exact Or.inr (Or.inr he)

/-- The hint for an entry says how large that entry is at most. -/
theorem SafeHint.size_le (hord : AddressOrdered (l ++ current :: next))
    (h : SafeHint (l ++ current :: next) current.base s) : current.size ≤ s := by
  rcases h with hstale | ⟨e, he, hbase, hes⟩
  · exact absurd (hstale current (by simp)) (lt_irrefl _)
  · rwa [← hord.eq_of_base_eq he (by simp) hbase]

theorem SafeHint.recycle (hord : AddressOrdered (xs ++ current :: next))
    (h : SafeHint (xs ++ current :: next) current.base s) (hin : x.Within current) :
    SafeHint (xs ++ ([x] ++ next)) x.base s := by
  have hsize := h.size_le hord
  obtain ⟨hbase, htop⟩ := hin
  simp only [Extent.top] at htop
  exact Or.inr ⟨x, by simp, rfl, by omega⟩

/-- A new entry does not make a hint unsafe unless the hint was stale and lies above it. -/
theorem SafeHint.insert (h : SafeHint (xs ++ ys) a s)
    (hnew : (∀ e ∈ xs ++ ys, a < e.base) → a < x.base ∨ (a = x.base ∧ x.size ≤ s)) :
    SafeHint (xs ++ x :: ys) a s := by
  rcases h with hstale | ⟨e, he, hea, hes⟩
  · rcases hnew hstale with hlt | ⟨rfl, hle⟩
    · refine Or.inl fun e he => ?_
      simp only [List.mem_append, List.mem_cons] at he
      rcases he with he | rfl | he
      · exact hstale e (by simp [he])
      · exact hlt
      · exact hstale e (by simp [he])
    · exact Or.inr ⟨x, by simp, rfl, hle⟩
  · refine Or.inr ⟨e, ?_, hea, hes⟩
    simp only [List.mem_append, List.mem_cons] at he ⊢
    tauto

/-- An entry may be replaced by another one if the hints for it allow that. -/
theorem SafeHint.replace (h : SafeHint (xs ++ current :: next) a s)
    (hnamed : a = current.base → current.size ≤ s → x.base = a ∧ x.size ≤ s)
    (hstale : (∀ e ∈ xs ++ current :: next, a < e.base) → a < x.base) :
    SafeHint (xs ++ x :: next) a s := by
  rcases h with hst | ⟨e, he, hea, hes⟩
  · have hx := hstale hst
    refine Or.inl fun e he => ?_
    simp only [List.mem_append, List.mem_cons] at he
    rcases he with he | rfl | he
    · exact hst e (by simp [he])
    · exact hx
    · exact hst e (by simp [he])
  · simp only [List.mem_append, List.mem_cons] at he
    rcases he with he | rfl | he
    · exact Or.inr ⟨e, by simp [he], hea, hes⟩
    · obtain ⟨hxa, hxs⟩ := hnamed hea.symm hes
      exact Or.inr ⟨x, by simp, hxa, hxs⟩
    · exact Or.inr ⟨e, by simp [he], hea, hes⟩

/-- Free memory is in order, apart from the memory handed out, and belongs to the pool;
all hints are safe. -/
structure Sound (w : World) : Prop where
  ordered : AddressOrdered w.pool.heapFreeList
  safe : w.pool.hints.All (SafeHint w.pool.heapFreeList)
  apart : Disjoint (bytesOf w.pool.heapFreeList) w.handedOut
  inside : bytesOf w.pool.heapFreeList ∪ w.handedOut ⊆ w.memory

/-- A safe hint that is found leads the walk to an entry that it has to pass. -/
theorem HintsSafe.found (h : HintsSafe p) {size : ℕ} {hint : AllocateHint}
    (hused : (p.findHint size).2 = some hint) :
    ∃ e ∈ p.heapFreeList, e.base = hint.heapFreeHeader ∧ e.size < size := by
  obtain ⟨hmem, hlive, hlt⟩ := HintCache.findHint_some hused
  obtain ⟨e, he, hbase, hle⟩ := h hint hmem hlive
  exact ⟨e, he, hbase, by omega⟩

theorem HintsSafe.hintLeadsOn (h : HintsSafe p) (size : ℕ) : p.HintLeadsOn size := by
  intro hint hused
  obtain ⟨e, he, hbase, hlt⟩ := h.found hused
  exact ⟨e, he, hbase, Or.inl hlt⟩

variable {w w' : World}

theorem Sound.hintsSafe (h : Sound w) : HintsSafe w.pool := (hintsSafe_iff h.ordered).2 h.safe

/-- The world after the first bytes of an entry have been handed out. -/
theorem Sound.take (h : Sound w) {n : ℕ} (hl : w.pool.heapFreeList = l ++ current :: next)
    (hn : n ≤ current.size) (hm : ∀ x ∈ m', x.base = current.base + n ∧ x.top = current.top)
    (hord : AddressOrdered m') (hl' : p'.heapFreeList = l ++ (m' ++ next))
    (hsafe : p'.hints.All (SafeHint p'.heapFreeList)) :
    Sound ⟨p', w.handedOut ∪ Set.Ico current.base (current.base + n), w.memory⟩ := by
  have hold := h.ordered
  rw [hl] at hold
  obtain ⟨hdisj, hsub⟩ := hold.bytesOf_take hn hm
  have htaken : Set.Ico current.base (current.base + n) ⊆ bytesOf w.pool.heapFreeList := by
    intro a ⟨hlo, hhi⟩
    refine ⟨current, by simp [hl], Extent.mem_bytes.2 ⟨hlo, ?_⟩⟩
    simp only [Extent.top]
    omega
  have hin := h.inside
  rw [Set.union_subset_iff] at hin
  refine ⟨?_, hsafe, ?_, ?_⟩
  · rw [hl']
    exact AddressOrdered.replace (m := [current]) hold hord fun e he =>
      ⟨current, by simp, by have := hm e he; omega, (hm e he).2.le⟩
  · rw [Set.disjoint_union_right]
    exact ⟨h.apart.mono_left (by rw [hl', hl]; exact hsub), by rw [hl']; exact hdisj⟩
  · refine Set.union_subset ?_ (Set.union_subset hin.2 (htaken.trans hin.1))
    rw [hl']
    exact hsub.trans (hl ▸ hin.1)

theorem mem_of_createFreeEntry_take {n : ℕ} {e : Extent}
    (he : e ∈ (p.createFreeEntry (current.base + n) current.top).toList) :
    e.base = current.base + n ∧ e.top = current.top :=
  ⟨(mem_createFreeEntry he).1, (mem_createFreeEntry he).2.1⟩

/-- The hint that a long walk records is safe. -/
theorem AllocatedFrom.hintsAfterWalk_safe {size : ℕ} {before walked : List Extent}
    (ha : AllocatedFrom p p' size before walked current next)
    (h : p.hints.All (SafeHint p.heapFreeList)) :
    (Pool.hintsAfterWalk (p.findHint size).1 (p.findHint size).2 walked).All
      (SafeHint p.heapFreeList) := by
  have hfound : (p.findHint size).1.All (SafeHint p.heapFreeList) :=
    (HintCache.findHint_all h).mono fun _ _ => And.left
  unfold Pool.hintsAfterWalk
  split
  · exact hfound
  · rename_i previous hlast
    have hprev := List.mem_of_mem_getLast? hlast
    split
    · refine HintCache.addHint_all hfound (Or.inr ⟨previous, ?_, rfl, (le_largestSize _ _).2 _ hprev⟩)
      rw [ha.heapFreeList_eq]
      simp [hprev]
    · exact hfound

theorem Sound.allocate (h : Sound w) {size : ℕ} {r : Option ℕ}
    (hrun : w.pool.internalAllocate size = some (p', r)) :
    Sound ⟨p', w.handedOut ∪ objectBytes size r, w.memory⟩ := by
  rcases internalAllocate_cases hrun with ⟨rfl, before, rest, -, -, rfl⟩ |
    ⟨before, walked, current, next, rfl, ha⟩
  · simp only [objectBytes, Set.union_empty]
    exact ⟨h.ordered, (HintCache.findHint_all h.safe).mono fun _ _ => And.left, h.apart,
      h.inside⟩
  · have hl := ha.heapFreeList_eq
    have hl' := ha.list_eq
    rw [ha.previous_eq h.ordered (h.hintsSafe.hintLeadsOn size)] at hl'
    have hord := h.ordered
    rw [hl] at hord
    have hkept : ∀ e ∈ (w.pool.createFreeEntry (current.base + size) current.top).toList,
        e.Within current := by
      intro e he
      have := mem_of_createFreeEntry_take he
      exact ⟨by omega, by omega⟩
    have hafter := ha.hintsAfterWalk_safe h.safe
    rw [hl] at hafter
    refine h.take hl ha.current_fits (fun x hx => mem_of_createFreeEntry_take hx)
      (addressOrdered_freeEntryIn _ _ _) hl' ?_
    rw [hl']
    rcases ha.hints_eq with ⟨x, hx, hupd⟩ | ⟨hnone, hrem⟩
    · obtain ⟨hxbase, -⟩ := freeEntryIn_eq_some hx
      refine HintCache.updateHint_all hafter hupd (fun s hs => ?_) fun a s hne hs => ?_
      · rw [hx, ← hxbase]
        exact hs.recycle hord (hkept x (by simp [hx]))
      · exact hs.shrink hne hkept
    · rw [hrem]
      exact (HintCache.removeHint_all hafter).mono fun a s ⟨hs, hne⟩ => hs.shrink hne hkept

theorem Sound.allocateTLH (h : Sound w) {maximum : ℕ} {r : Option Extent}
    (hrun : w.pool.internalAllocateTLH maximum = some (p', r)) :
    Sound ⟨p', w.handedOut ∪ tlhBytes r, w.memory⟩ := by
  rcases internalAllocateTLH_cases hrun with ⟨rfl, -, rfl⟩ |
    ⟨freeEntry, next, consumed, rfl, -, ht⟩
  · simp only [tlhBytes, Set.union_empty]
    exact ⟨h.ordered, h.safe, h.apart, h.inside⟩
  · have hl := ht.heapFreeList_eq
    have hord := h.ordered
    rw [hl] at hord
    have htlh : tlhBytes (some ⟨freeEntry.base, consumed⟩) =
        Set.Ico freeEntry.base (freeEntry.base + consumed) := rfl
    rw [htlh]
    refine h.take (l := []) hl ht.consumed_le (fun x hx => mem_of_createFreeEntry_take hx)
      (addressOrdered_freeEntryIn _ _ _) ht.list_eq ?_
    rw [ht.hints_eq, ht.list_eq]
    have hsafe := h.safe
    rw [hl] at hsafe
    refine hsafe.mono fun a s hs => ?_
    by_cases ha : a = freeEntry.base
    · subst ha
      have hafter := (AddressOrdered.cons_iff.1 hord).2.2
      have hsize := SafeHint.size_le (l := []) hord hs
      have hpos := hord.size_pos freeEntry (by simp)
      cases hx : w.pool.createFreeEntry (freeEntry.base + consumed) freeEntry.top with
      | some x =>
        obtain ⟨hxbase, hxtop, -⟩ := freeEntryIn_eq_some hx
        simp only [Extent.top] at hxtop
        by_cases hzero : consumed = 0
        · exact Or.inr ⟨x, by simp, by omega, by omega⟩
        · refine Or.inl fun e he => ?_
          rcases List.mem_cons.1 he with rfl | he
          · omega
          · have := hafter e he
            simp only [Extent.top] at this
            omega
      | none =>
        refine Or.inl fun e he => ?_
        have := hafter e he
        simp only [Extent.top] at this
        omega
    · refine SafeHint.shrink (l := []) hs ha fun e he => ?_
      have := mem_of_createFreeEntry_take he
      exact ⟨by omega, by omega⟩

/-- Memory without a free address is apart from the entries of the list. -/
theorem apart_of_disjoint_bytesOf {l : List Extent} (hord : AddressOrdered l) (hx : 0 < x.size)
    (hdisj : Disjoint x.bytes (bytesOf l)) : ∀ e ∈ l, x.Apart e := by
  intro e he
  refine Extent.apart_of_disjoint (hdisj.mono_right fun a ha => ?_) hx (hord.size_pos e he)
  exact ⟨e, he, ha⟩

theorem Sound.recycle (h : Sound w) {chunk : Extent} (hout : chunk.bytes ⊆ w.handedOut)
    (hcond : (Exchange.recycle chunk).KeepsHints w.pool) :
    Sound ⟨(w.pool.recycleHeapChunk chunk.base chunk.top).1, w.handedOut \ chunk.bytes,
      w.memory⟩ := by
  have hin := h.inside
  rw [Set.union_subset_iff] at hin
  rcases w.pool.recycleHeapChunk_cases chunk with hsame | ⟨xs, ys, hl, -, hnew, hres, hord⟩
  · rw [hsame]
    exact ⟨h.ordered, h.safe, h.apart.mono_right Set.sdiff_subset,
      Set.union_subset hin.1 (Set.sdiff_subset.trans hin.2)⟩
  · have hpos := (freeEntryIn_eq_some hnew).2.2.1
    have hap := apart_of_disjoint_bytesOf h.ordered hpos (h.apart.mono_right hout).symm
    have hbytes : bytesOf (xs ++ chunk :: ys) = bytesOf w.pool.heapFreeList ∪ chunk.bytes := by
      rw [hl]
      simp only [bytesOf_append, bytesOf_cons]
      rw [Set.union_assoc, Set.union_comm (bytesOf ys)]
    rw [hres]
    refine ⟨hord h.ordered hap, ?_, ?_, ?_⟩
    · intro hint hmem
      have hsafe := h.safe hint hmem
      rw [hl] at hsafe
      refine hsafe.insert fun hstale => ?_
      refine hcond (by rw [hnew]; rfl) hint hmem ((isStale_iff h.ordered).2 ?_)
      rwa [hl]
    · dsimp only
      rw [hbytes, Set.disjoint_union_left]
      exact ⟨h.apart.mono_right Set.sdiff_subset, Set.disjoint_sdiff_right⟩
    · dsimp only
      rw [hbytes]
      exact Set.union_subset (Set.union_subset hin.1 (hout.trans hin.2))
        (Set.sdiff_subset.trans hin.2)

/-- The bytes of two extents that touch. -/
theorem bytes_fuse {a b : Extent} (h : a.top = b.base) :
    (⟨a.base, a.size + b.size⟩ : Extent).bytes = a.bytes ∪ b.bytes := by
  ext x
  simp only [Extent.mem_bytes, Set.mem_union, Extent.top] at h ⊢
  omega

/-- An expansion adds the addresses of the range to the list. -/
theorem Expanded.bytesOf_eq {range : Extent} {canCoalesce : Bool}
    (hexp : Expanded p range canCoalesce xs ys p') :
    bytesOf p'.heapFreeList = bytesOf (xs ++ ys) ∪ range.bytes := by
  cases hexp with
  | fusedToPrevious hcan hxs htouch =>
    subst hxs
    simp only [bytesOf_append, bytesOf_cons, bytesOf_nil, bytes_fuse htouch, Set.union_empty]
    ext a
    simp only [Set.mem_union]
    tauto
  | fusedToNext hcan hfree hys htouch =>
    subst hys
    simp only [bytesOf_append, bytesOf_cons, bytes_fuse htouch]
    ext a
    simp only [Set.mem_union]
    tauto
  | inserted =>
    simp only [insertRange, bytesOf_append, bytesOf_cons]
    ext a
    simp only [Set.mem_union]
    tauto

/-- If the entry right before a range does not touch it, then no entry does. -/
theorem top_ne_of_last (hord : AddressOrdered (xs ++ ([x] ++ ys)))
    (hfree : ∀ ws prev, xs = ws ++ [prev] → prev.top ≠ x.base) :
    ∀ e ∈ xs ++ ys, e.top ≠ x.base := by
  intro e he htop
  obtain ⟨hbefore, hafter⟩ := AddressOrdered.around hord
  rcases List.mem_append.1 he with he | he
  · rcases List.eq_nil_or_concat' xs with rfl | ⟨ws, prev, rfl⟩
    · simp at he
    · rcases List.mem_append.1 he with he | he
      · have hlast := hbefore prev (by simp)
        have hws := (AddressOrdered.append_iff.1 hord.left).2.2 e he prev (by simp)
        have hpos := hord.size_pos prev (by simp)
        simp only [Extent.top] at hlast hws htop
        omega
      · rw [List.mem_singleton.1 he] at htop
        exact hfree ws prev rfl htop
  · have hx := hord.size_pos x (by simp)
    have := hafter e he
    simp only [Extent.top] at this htop
    omega

theorem Sound.expand (h : Sound w) {range : Extent} {canCoalesce : Bool}
    (hout : Disjoint range.bytes w.memory)
    (hcond : (Exchange.expand range canCoalesce).KeepsHints w.pool) :
    Sound ⟨w.pool.expandWithRange range canCoalesce, w.handedOut, w.memory ∪ range.bytes⟩ := by
  have hin := h.inside
  rw [Set.union_subset_iff] at hin
  rcases w.pool.expandWithRange_cases range canCoalesce with
    hsame | ⟨xs, ys, hl, -, hpos, hmin, hexp, hord⟩
  · rw [hsame]
    exact ⟨h.ordered, h.safe, h.apart, h.inside.trans Set.subset_union_left⟩
  · have hap := apart_of_disjoint_bytesOf h.ordered hpos (hout.mono_right hin.1)
    have hord := hord h.ordered hap
    have hbytes := hexp.bytesOf_eq
    rw [← hl] at hbytes
    have hcond := hcond hpos hmin
    have hsafe := h.safe
    have hstale : ∀ a, (∀ e ∈ xs ++ ys, a < e.base) →
        HintCache.isStale w.pool.headAddress a = true := by
      intro a ha
      refine (isStale_iff h.ordered).2 ?_
      rwa [hl]
    refine ⟨?_, ?_, ?_, ?_⟩
    · generalize w.pool.expandWithRange range canCoalesce = p' at hexp hbytes
      cases hexp with
      | fusedToPrevious hcan hxs htouch =>
        subst hxs
        rw [List.append_assoc] at hord
        exact AddressOrdered.fuse hord htouch
      | fusedToNext hcan hfree hys htouch =>
        subst hys
        exact hord.fuse htouch
      | inserted => exact hord
    · generalize w.pool.expandWithRange range canCoalesce = p' at hexp hbytes
      cases hexp with
      | @fusedToPrevious ws prev hcan hxs htouch =>
        subst hxs
        intro hint hmem
        obtain ⟨-, hgrow, -⟩ := hcond hint hmem
        have hs := hsafe hint hmem
        rw [hl, List.append_assoc] at hs
        refine hs.replace (fun ha _ => ⟨ha.symm, ?_⟩) fun hst => hst prev (by simp)
        exact hgrow hcan prev (by rw [hl]; simp) htouch ha.symm
      | @fusedToNext next zs hcan hfree hys htouch =>
        subst hys
        intro hint hmem
        obtain ⟨hold, -, hmove⟩ := hcond hint hmem
        have hs := hsafe hint hmem
        rw [hl] at hs
        refine hs.replace (fun ha _ => ?_) fun hst => hold (hstale _ hst)
        refine absurd ha.symm (hmove hcan ?_ next (by rw [hl]; simp) htouch)
        rw [hl]
        exact top_ne_of_last hord hfree
      | inserted =>
        intro hint hmem
        have hs := hsafe hint hmem
        rw [hl] at hs
        exact hs.insert fun hst => Or.inl ((hcond hint hmem).1 (hstale _ hst))
    · dsimp only
      rw [hbytes, Set.disjoint_union_left]
      exact ⟨h.apart, hout.mono_right hin.2⟩
    · dsimp only
      rw [hbytes]
      exact Set.union_subset (Set.union_subset_union_left _ hin.1)
        (hin.2.trans Set.subset_union_left)

theorem Sound.step (h : Sound w) {e : Exchange} (hcond : e.KeepsHints w.pool)
    (hstep : Exchanges w e w') : Sound w' := by
  cases hstep with
  | allocate hrun => exact h.allocate hrun
  | allocateTLH hrun => exact h.allocateTLH hrun
  | recycle hout => exact h.recycle hout hcond
  | expand hout => exact h.expand hout hcond

theorem arises_sound (h : Arises (fun p e => e.KeepsHints p) w) : Sound w := by
  induction h with
  | start hfresh hout hin =>
    exact ⟨hfresh.ordered, by simp [HintCache.All, hfresh.noHints], hout, hin⟩
  | step _ hcond hstep ih => exact ih.step hcond hstep

/-- Along every run in which memory given back meets the condition, every hint that is not
stale names an entry of the list that is no larger than the hint says, and an
allocation that follows a hint begins at an entry of the list that it has to pass. -/
theorem arises_hintsSafe (h : Arises (fun p e => e.KeepsHints p) w) :
    HintsSafe w.pool ∧ ∀ size hint, (w.pool.findHint size).2 = some hint →
      ∃ e ∈ w.pool.heapFreeList, e.base = hint.heapFreeHeader ∧ e.size < size := by
  have hsafe := (arises_sound h).hintsSafe
  exact ⟨hsafe, fun size hint hused => hsafe.found hused⟩

/-- The pool with its entries free, all other addresses but `[3016, 3080)` its own, and
nothing handed out. -/
def longWorld : World := ⟨longPool, ∅, (Set.Ico 3016 3080)ᶜ⟩

theorem longWorld_arises (C : Pool → Exchange → Prop) : Arises C longWorld := by
  refine .start ⟨by decide, by decide, rfl⟩ (Set.disjoint_empty _) ?_
  rw [longWorld, Set.union_empty]
  rintro a ⟨e, he, ha⟩ ⟨hlo, hhi⟩
  rw [Extent.mem_bytes] at ha
  have hapart : ∀ e ∈ longPool.heapFreeList, e.top ≤ 3016 ∨ 3080 ≤ e.base := by decide
  have := hapart e he
  omega

/-- An object is allocated after a long walk, and its memory is recycled. -/
theorem arises_hintsSafe_longWorld :
    ∃ w, Arises (fun p e => e.KeepsHints p) w ∧ w.pool.hints.hintActive = [⟨16, 3000, 0⟩] ∧
      HintsSafe w.pool := by
  have hrun : ∃ p, longPool.internalAllocate 32 = some (p, some 3100) ∧
      (Exchange.recycle ⟨3100, 32⟩).KeepsHints p ∧
      (p.recycleHeapChunk 3100 3132).1.hints.hintActive = [⟨16, 3000, 0⟩] := by
    refine ⟨_, rfl, ?_⟩
    decide
  obtain ⟨p, hp, hkeeps, hactive⟩ := hrun
  have hout : (⟨3100, 32⟩ : Extent).bytes ⊆ ∅ ∪ objectBytes 32 (some 3100) := by
    rw [Set.empty_union]
    exact subset_rfl
  have hfirst := (longWorld_arises fun p e => e.KeepsHints p).step (x := .allocate 32) trivial
    (.allocate hp)
  have hreach := hfirst.step hkeeps (.recycle hout)
  exact ⟨_, hreach, hactive, (arises_hintsSafe hreach).1⟩

/-- The range fused to the entry at 3000 makes that entry larger than its hint says. -/
theorem longWorld_hint_unsafe :
    ∃ w, Arises (fun _ _ => True) w ∧ ⟨3000, 80⟩ ∈ w.pool.heapFreeList ∧
      w.pool.hints.hintActive = [⟨16, 3000, 0⟩] ∧ ¬ HintsSafe w.pool := by
  have hrun : ∃ p, longPool.internalAllocate 32 = some (p, some 3100) ∧
      ⟨3000, 80⟩ ∈ (p.expandWithRange ⟨3016, 64⟩ true).heapFreeList ∧
      (p.expandWithRange ⟨3016, 64⟩ true).hints.hintActive = [⟨16, 3000, 0⟩] ∧
      ¬ HintsSafe (p.expandWithRange ⟨3016, 64⟩ true) := by
    refine ⟨_, rfl, ?_⟩
    decide
  obtain ⟨p, hp, hmem, hactive, hunsafe⟩ := hrun
  have hout : Disjoint (⟨3016, 64⟩ : Extent).bytes (Set.Ico 3016 3080)ᶜ := disjoint_compl_right
  have hreach := ((longWorld_arises fun _ _ => True).step trivial (.allocate hp)).step trivial
    (@Exchanges.expand _ _ true hout)
  exact ⟨_, hreach, hmem, hactive, hunsafe⟩

end OMR.GC.Pool
