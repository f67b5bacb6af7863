import OMR.GC.MemoryPoolAddressOrderedList
import OMR.GC.PoolTransitions

/-!
# The accounting of the address-ordered pool

The free list stays in address order and the counters of the pool agree with it,
over every run of the operations that give memory to the pool or take it away.
The one operation that can break this is `internalAllocate`, when the hint it
follows does not lead it to an entry from which it has to walk on.
-/

namespace OMR.GC.Pool

open OMR.Lib

/-- The operations on a pool. -/
inductive Op where
  | allocate (sizeInBytesRequired : ℕ)
  | allocateTLH (maximumSizeInBytesRequired : ℕ)
  | recycle (chunk : Extent)
  | expand (range : Extent) (canCoalesce : Bool)
  | contract (range : Extent)
  | addEntries (freeList : List Extent)
  | removeEntries (lowAddress highAddress minimumSize : ℕ)

/-- The pool after an operation. -/
def step (p : Pool) : Op → Option Pool
  | .allocate size => (p.internalAllocate size).map Prod.fst
  | .allocateTLH maximum => (p.internalAllocateTLH maximum).map Prod.fst
  | .recycle chunk => some (p.recycleHeapChunk chunk.base chunk.top).1
  | .expand range canCoalesce => some (p.expandWithRange range canCoalesce)
  | .contract range => (p.contractWithRange range).map Prod.fst
  | .addEntries freeList => p.addFreeEntries freeList freeList.length (totalSize freeList)
  | .removeEntries low high minimum => some (p.removeFreeEntriesWithinRange low high minimum).1

/-- What the callers see to: memory that is given is not on the list, a range to be
contracted lies in one entry, and a list of entries fits between two neighbours. -/
def Op.Admissible (p : Pool) : Op → Prop
  | .allocate _ => True
  | .allocateTLH _ => True
  | .recycle chunk => ∀ e ∈ p.heapFreeList, chunk.Apart e
  | .expand range _ => ∀ e ∈ p.heapFreeList, range.Apart e
  | .contract range => ∃ e ∈ p.heapFreeList, range.Within e
  | .addEntries freeList => freeList ≠ [] ∧ AddressOrdered freeList ∧
      ∀ e ∈ p.heapFreeList, (∀ x ∈ freeList, e.top ≤ x.base) ∨ ∀ x ∈ freeList, x.top ≤ e.base
  | .removeEntries low high _ => low ≤ high

/-- The condition on a step: an allocation does not follow a misleading hint. -/
def Op.HintsLeadOn (p : Pool) : Op → Prop
  | .allocate size => p.HintLeadsOn size
  | _ => True

instance (p : Pool) (op : Op) : Decidable (op.Admissible p) :=
  match op with
  | .allocate _ => inferInstanceAs (Decidable True)
  | .allocateTLH _ => inferInstanceAs (Decidable True)
  | .recycle _ => inferInstanceAs (Decidable (∀ _ ∈ _, _))
  | .expand _ _ => inferInstanceAs (Decidable (∀ _ ∈ _, _))
  | .contract _ => inferInstanceAs (Decidable (∃ _ ∈ _, _))
  | .addEntries _ => inferInstanceAs (Decidable (_ ∧ _ ∧ _))
  | .removeEntries _ _ _ => inferInstanceAs (Decidable (_ ≤ _))

/-- The addresses of the entries that an operation hands in ready made. -/
def Op.handedIn : Op → List ℕ
  | .addEntries freeList => freeList.map Extent.base
  | _ => []

/-- The entries of the list that began as an entry handed in. -/
def foreignAfter (p : Pool) (foreign : List ℕ) : List ℕ :=
  foreign.filter fun a => a ∈ p.heapFreeList.map Extent.base

/-- The pools that runs of admissible operations reach, each step of which meets `C`.
With the pool goes the list of the entries in it that were handed in. -/
inductive Reaches (C : Pool → Op → Prop) : Pool → List ℕ → Prop where
  | reset (p : Pool) : Reaches C p.reset []
  | rebuild (p : Pool) (low high : ℕ) : Reaches C (p.rebuildFreeListInRegion low high) []
  | step {p p' : Pool} {foreign : List ℕ} {op : Op} (hrun : Reaches C p foreign)
      (hadm : op.Admissible p) (hcond : C p op) (hstep : p.step op = some p') :
      Reaches C p' (p'.foreignAfter (foreign ++ op.handedIn))

/-- The list is in order, the counters agree with it, and every entry that the pool has
built itself has the minimum size. -/
structure Accounted (p : Pool) (foreign : List ℕ) : Prop where
  ordered : AddressOrdered p.heapFreeList
  freeMemorySize_eq : p.freeMemorySize = totalSize p.heapFreeList
  freeEntryCount_eq : p.freeEntryCount = p.heapFreeList.length
  built_size : ∀ e ∈ p.heapFreeList, e.base ∉ foreign → p.minimumFreeEntrySize ≤ e.size

variable {p p' : Pool} {foreign fresh : List ℕ} {l r m n : List Extent}

/-- The accounting survives the replacement of some entries by others of which the
counters were told. -/
theorem Accounted.replace (h : Accounted p foreign) (hl : p.heapFreeList = l ++ (m ++ r))
    (hl' : p'.heapFreeList = l ++ (n ++ r))
    (hmin : p'.minimumFreeEntrySize = p.minimumFreeEntrySize)
    (hord : AddressOrdered (l ++ (n ++ r)))
    (hsize : p'.freeMemorySize = p.freeMemorySize + totalSize n - totalSize m)
    (hcount : p'.freeEntryCount = p.freeEntryCount + n.length - m.length)
    (hbuilt : ∀ e ∈ n, e.base ∉ foreign ++ fresh → p.minimumFreeEntrySize ≤ e.size) :
    Accounted p' (p'.foreignAfter (foreign ++ fresh)) := by
  refine ⟨hl' ▸ hord, ?_, ?_, fun e he hfor => ?_⟩
  · rw [hsize, h.freeMemorySize_eq, hl, hl']
    push_cast [totalSize_append]
    omega
  · rw [hcount, h.freeEntryCount_eq, hl, hl']
    push_cast [List.length_append]
    omega
  · rw [hmin]
    have hnew : e.base ∉ foreign ++ fresh := by
      intro hmem
      refine hfor (List.mem_filter.2 ⟨hmem, ?_⟩)
      simpa using ⟨e, he, rfl⟩
    have hold : e ∈ l ++ (m ++ r) → p.minimumFreeEntrySize ≤ e.size := by
      intro hmem
      refine h.built_size e (hl ▸ hmem) fun hf => hnew (List.mem_append_left _ hf)
    rw [hl', List.mem_append, List.mem_append] at he
    rcases he with he | he | he
    · exact hold (by simp [he])
    · exact hbuilt e he hnew
    · exact hold (by simp [he])

/-- An operation that leaves the list and its counters alone. -/
theorem Accounted.unchanged (h : Accounted p foreign) (hl : p'.heapFreeList = p.heapFreeList)
    (hmin : p'.minimumFreeEntrySize = p.minimumFreeEntrySize)
    (hsize : p'.freeMemorySize = p.freeMemorySize)
    (hcount : p'.freeEntryCount = p.freeEntryCount) :
    Accounted p' (p'.foreignAfter (foreign ++ [])) :=
  h.replace (l := []) (m := []) (n := []) (r := p.heapFreeList) (by simp) (by simp [hl]) hmin
    (by simpa using h.ordered) (by simp [hsize]) (by simp [hcount]) (by simp)

/-- What is kept of an entry may stand in its place. -/
theorem Accounted.keep (h : Accounted p foreign) {e : Extent}
    (hl : p.heapFreeList = l ++ (e :: r)) (hm : AddressOrdered n)
    (hin : ∀ e' ∈ n, e'.Within e) : AddressOrdered (l ++ (n ++ r)) := by
  have hord := h.ordered
  rw [hl] at hord
  exact AddressOrdered.replace (m := [e]) hord hm fun e' he' => ⟨e, by simp, hin e' he'⟩

theorem internalAllocate_accounted (h : Accounted p foreign) {size : ℕ}
    (hhint : p.HintLeadsOn size) {r : Option ℕ} (hrun : p.internalAllocate size = some (p', r)) :
    Accounted p' (p'.foreignAfter (foreign ++ [])) := by
  rcases internalAllocate_cases hrun with ⟨-, before, rest, -, -, rfl⟩ |
    ⟨before, walked, current, next, -, ha⟩
  · exact h.unchanged rfl rfl rfl rfl
  · have hlist : p.heapFreeList = (before ++ walked) ++ (current :: next) := by
      rw [startOfWalk_eq_append ha.start, List.append_assoc]
    refine h.replace (m := [current]) (r := next) hlist
      (by rw [ha.list_eq, ha.previous_eq h.ordered hhint]) ha.minimum_eq ?_ ?_ ?_ ?_
    · refine h.keep hlist (addressOrdered_freeEntryIn _ _ _) fun e he => ?_
      obtain ⟨hbase, htop, -⟩ := mem_createFreeEntry he
      exact ⟨by omega, by omega⟩
    · simpa using ha.freeMemorySize_eq
    · simpa using ha.freeEntryCount_eq
    · intro e he _
      exact (mem_createFreeEntry he).2.2.2

theorem internalAllocateTLH_accounted (h : Accounted p foreign) {maximum : ℕ}
    {r : Option Extent} (hrun : p.internalAllocateTLH maximum = some (p', r)) :
    Accounted p' (p'.foreignAfter (foreign ++ [])) := by
  rcases internalAllocateTLH_cases hrun with ⟨-, -, rfl⟩ | ⟨freeEntry, next, consumed, -, -, ht⟩
  · exact h.unchanged rfl rfl rfl rfl
  · refine h.replace (l := []) (m := [freeEntry]) (r := next) ht.heapFreeList_eq ht.list_eq
      ht.minimum_eq ?_ ?_ ?_ ?_
    · refine h.keep (l := []) ht.heapFreeList_eq (addressOrdered_freeEntryIn _ _ _) fun e he => ?_
      obtain ⟨hbase, htop, -⟩ := mem_createFreeEntry he
      exact ⟨by omega, by omega⟩
    · simpa using ht.freeMemorySize_eq
    · simpa using ht.freeEntryCount_eq
    · intro e he _
      exact (mem_createFreeEntry he).2.2.2

theorem recycleHeapChunk_accounted (h : Accounted p foreign) {chunk : Extent}
    (hap : ∀ e ∈ p.heapFreeList, chunk.Apart e) :
    Accounted (p.recycleHeapChunk chunk.base chunk.top).1
      ((p.recycleHeapChunk chunk.base chunk.top).1.foreignAfter (foreign ++ [])) := by
  rcases p.recycleHeapChunk_cases chunk with hsame | ⟨xs, ys, hl, -, hnew, hres, hord⟩
  · rw [hsame]
    exact h.unchanged rfl rfl rfl rfl
  · rw [hres]
    refine h.replace (m := []) (n := [chunk]) hl rfl rfl (hord h.ordered hap) ?_ ?_ ?_
    · simp
    · simp
    · simpa using fun _ => (freeEntryIn_eq_some hnew).2.2.2

theorem expandWithRange_accounted (h : Accounted p foreign) {range : Extent}
    {canCoalesce : Bool} (hap : ∀ e ∈ p.heapFreeList, range.Apart e) :
    Accounted (p.expandWithRange range canCoalesce)
      ((p.expandWithRange range canCoalesce).foreignAfter (foreign ++ [])) := by
  rcases p.expandWithRange_cases range canCoalesce with
    hsame | ⟨xs, ys, hl, -, hpos, hmin, hexp, hord⟩
  · rw [hsame]
    exact h.unchanged rfl rfl rfl rfl
  · have hord := hord h.ordered hap
    generalize p.expandWithRange range canCoalesce = p' at hexp
    cases hexp with
    | @fusedToPrevious ws prev hcan hxs htouch =>
      subst hxs
      rw [List.append_assoc] at hl hord
      refine h.replace (m := [prev]) (n := [_]) hl rfl rfl (AddressOrdered.fuse hord htouch)
        ?_ ?_ ?_
      · simp only [totalSize_cons, totalSize_nil]
        omega
      · simp
      · simp only [List.mem_singleton, forall_eq]
        omega
    | @fusedToNext next zs hcan hfree hys htouch =>
      subst hys
      refine h.replace (m := [next]) (n := [_]) (r := zs) hl rfl rfl (hord.fuse htouch) ?_ ?_ ?_
      · simp only [totalSize_cons, totalSize_nil]
        omega
      · simp
      · simp only [List.mem_singleton, forall_eq]
        omega
    | inserted =>
      refine h.replace (m := []) (n := [range]) hl rfl rfl hord ?_ ?_ ?_
      · simp [insertRange]
      · simp [insertRange]
      · simp [hmin]

/-- A list that fits between two neighbours goes where its head belongs. -/
theorem splice_ordered (hord : AddressOrdered p.heapFreeList) {freeList : List Extent}
    {freeListHead : Extent} (hhead : freeListHead ∈ freeList) (hfree : AddressOrdered freeList)
    (hfits : ∀ e ∈ p.heapFreeList,
      (∀ x ∈ freeList, e.top ≤ x.base) ∨ ∀ x ∈ freeList, x.top ≤ e.base) :
    AddressOrdered ((p.heapFreeList.takeWhile fun e => e.base ≤ freeListHead.base) ++
      (freeList ++ p.heapFreeList.dropWhile fun e => e.base ≤ freeListHead.base)) := by
  have hcut := walk_append p.heapFreeList freeListHead.base
  have hpos := hfree.size_pos freeListHead hhead
  refine AddressOrdered.splice (hcut ▸ hord) hfree ?_ ?_
  · intro a ha b hb
    have hle := le_of_mem_takeWhile ha
    rcases hfits a (List.takeWhile_subset _ ha) with hlo | hhi
    · exact hlo b hb
    · have := hhi freeListHead hhead
      simp only [Extent.top] at this
      omega
  · intro a ha b hb
    have hlt := hord.lt_of_mem_dropWhile hb
    rcases hfits b (List.dropWhile_subset _ hb) with hlo | hhi
    · have := hlo freeListHead hhead
      simp only [Extent.top] at this
      omega
    · exact hhi a ha

theorem addFreeEntries_accounted (h : Accounted p foreign) {freeList : List Extent}
    (hfree : AddressOrdered freeList)
    (hfits : ∀ e ∈ p.heapFreeList,
      (∀ x ∈ freeList, e.top ≤ x.base) ∨ ∀ x ∈ freeList, x.top ≤ e.base)
    (hrun : p.addFreeEntries freeList freeList.length (totalSize freeList) = some p') :
    Accounted p' (p'.foreignAfter (foreign ++ freeList.map Extent.base)) := by
  unfold addFreeEntries at hrun
  split at hrun
  case h_2 => simp at hrun
  case h_1 freeListHead freeListRest freeListTail htail =>
    have hord := splice_ordered h.ordered List.mem_cons_self hfree hfits
    have hcut := walk_append p.heapFreeList freeListHead.base
    dsimp only at hrun
    generalize (p.heapFreeList.takeWhile fun e => decide (e.base ≤ freeListHead.base)) = previous
      at hcut hord hrun
    generalize (p.heapFreeList.dropWhile fun e => decide (e.base ≤ freeListHead.base)) = next
      at hcut hord hrun
    have hhanded : ∀ e ∈ freeListHead :: freeListRest,
        e.base ∉ foreign ++ (freeListHead :: freeListRest).map Extent.base →
        p.minimumFreeEntrySize ≤ e.size := by
      intro e he hnew
      exact absurd (List.mem_append_right _ (List.mem_map_of_mem he)) hnew
    obtain rfl := (Option.some.inj hrun).symm
    split
    · -- in front of the list, with a neighbour behind
      rename_i heapHead heapRest hlast
      obtain rfl := List.getLast?_eq_none_iff.1 hlast
      split
      case isTrue htouch =>
        have hfl := List.dropLast_append_getLast? freeListTail htail
        have htotal := congrArg totalSize hfl
        have hlength := congrArg List.length hfl
        simp only [totalSize_append, totalSize_cons, totalSize_nil, List.length_append,
          List.length_cons, List.length_nil] at htotal hlength
        refine h.replace (l := []) (m := [heapHead])
          (n := (freeListHead :: freeListRest).dropLast ++
            [⟨freeListTail.base, freeListTail.size + heapHead.size⟩]) (r := heapRest) hcut
          (by simp) rfl ?_ ?_ ?_ ?_
        · rw [List.nil_append, List.append_assoc]
          refine AddressOrdered.fuse ?_ htouch
          rw [List.nil_append, ← hfl, List.append_assoc] at hord
          exact hord
        · simp only [totalSize_append, totalSize_cons, totalSize_nil]
          omega
        · simp only [List.length_append, List.length_cons, List.length_nil, if_true]
          omega
        · intro e he hnew
          rcases List.mem_append.1 he with he | he
          · exact hhanded e (List.dropLast_subset _ he) hnew
          · rw [List.mem_singleton.1 he] at hnew
            have hmem : freeListTail ∈ freeListHead :: freeListRest :=
              List.mem_of_mem_getLast? htail
            exact absurd (List.mem_append_right _ (List.mem_map_of_mem hmem)) hnew
      case isFalse =>
        exact h.replace (l := []) (m := []) hcut rfl rfl hord (by simp) (by simp) hhanded
    · -- into an empty list
      rename_i hlast
      obtain rfl := List.getLast?_eq_none_iff.1 hlast
      exact h.replace (l := []) (m := []) hcut (by simp) rfl hord (by simp) (by simp)
        hhanded
    · rename_i previousFreeEntry hlast
      split
      case isTrue htouch =>
        have hprev := List.dropLast_append_getLast? previousFreeEntry hlast
        rw [← hprev, List.append_assoc] at hcut hord
        refine h.replace (m := [previousFreeEntry])
          (n := ⟨previousFreeEntry.base, previousFreeEntry.size + freeListHead.size⟩ ::
            freeListRest) hcut rfl rfl (AddressOrdered.fuse hord htouch) ?_ ?_ ?_
        · simp only [totalSize_cons, totalSize_nil]
          omega
        · simp only [List.length_cons, List.length_nil, if_true]
          omega
        · intro e he hnew
          rcases List.mem_cons.1 he with rfl | he
          · have := h.built_size previousFreeEntry (by rw [hcut]; simp)
              fun hf => hnew (List.mem_append_left _ hf)
            dsimp only
            omega
          · exact hhanded e (List.mem_cons_of_mem _ he) hnew
      case isFalse =>
        exact h.replace (m := []) hcut rfl rfl hord (by simp) (by simp) hhanded

/-- The range `[a, b)` as an entry of the list, or nothing if it is given up. -/
def Remnant (p : Pool) (kept : Option Extent) (a b : ℕ) : Prop :=
  ∀ e ∈ kept, e.base = a ∧ e.top = b ∧ 0 < e.size ∧ p.minimumFreeEntrySize ≤ e.size

theorem remnant_createFreeEntry (p : Pool) (a b : ℕ) : p.Remnant (p.createFreeEntry a b) a b :=
  fun _ he => freeEntryIn_eq_some he

theorem remnant_ite (p : Pool) (c : Prop) [Decidable c] (a b : ℕ) :
    p.Remnant (if c then p.createFreeEntry a b else none) a b := by
  split
  · exact remnant_createFreeEntry p a b
  · intro e he
    simp at he

theorem of_isSome_ite {c : Prop} [Decidable c] {o : Option Extent}
    (h : (if c then o else none).isSome) : c := by
  by_contra hc
  simp [hc] at h

section Remnant

variable {kept leading trailing : Option Extent} {a b lo hi : ℕ}

theorem Remnant.mem (h : p.Remnant kept a b) {e : Extent} (he : e ∈ kept.toList) :
    e.base = a ∧ e.top = b ∧ 0 < e.size ∧ p.minimumFreeEntrySize ≤ e.size :=
  h e (Option.mem_toList.1 he)

theorem Remnant.totalSize (h : p.Remnant kept a b) :
    totalSize kept.toList = if kept.isSome then b - a else 0 := by
  cases kept with
  | none => rfl
  | some e =>
    obtain ⟨hbase, htop, -⟩ := h e rfl
    have hdef : e.top = e.base + e.size := rfl
    simp only [Option.toList_some, totalSize_cons, totalSize_nil, Option.isSome_some, if_true]
    omega

theorem Remnant.ordered (h : p.Remnant kept a b) : AddressOrdered kept.toList := by
  cases kept with
  | none => exact AddressOrdered.nil
  | some e => exact AddressOrdered.singleton (h e rfl).2.2.1

/-- What is kept of an entry before `lo` and from `hi` on. -/
theorem remnants_ordered (hl : p.Remnant leading a lo) (ht : p.Remnant trailing hi b)
    (hle : lo ≤ hi) : AddressOrdered (leading.toList ++ trailing.toList) := by
  refine AddressOrdered.append_iff.2 ⟨hl.ordered, ht.ordered, fun x hx y hy => ?_⟩
  obtain ⟨-, hxtop, -⟩ := hl.mem hx
  obtain ⟨hybase, -⟩ := ht.mem hy
  omega

/-- The parts kept of an entry lie in it. -/
theorem remnants_within {e : Extent} (hl : p.Remnant leading e.base lo)
    (ht : p.Remnant trailing hi e.top) (hlo : leading.isSome → lo ≤ e.top)
    (hhi : trailing.isSome → e.base ≤ hi) :
    ∀ e' ∈ leading.toList ++ trailing.toList, e'.Within e := by
  intro e' he'
  rcases List.mem_append.1 he' with he' | he'
  · obtain ⟨hbase, htop, -⟩ := hl.mem he'
    have := hlo (Option.isSome_of_mem (Option.mem_toList.1 he'))
    exact ⟨by omega, by omega⟩
  · obtain ⟨hbase, htop, -⟩ := ht.mem he'
    have := hhi (Option.isSome_of_mem (Option.mem_toList.1 he'))
    exact ⟨by omega, by omega⟩

end Remnant

theorem contractWithRange_accounted (h : Accounted p foreign) {range : Extent}
    {r : Option ℕ} (hrun : p.contractWithRange range = some (p', r)) :
    Accounted p' (p'.foreignAfter (foreign ++ [])) := by
  unfold contractWithRange at hrun
  split at hrun
  · obtain ⟨rfl, -⟩ := Prod.mk.inj (Option.some.inj hrun)
    exact h.unchanged rfl rfl rfl rfl
  · dsimp only at hrun
    split at hrun
    · simp at hrun
    · rename_i current next hdrop
      have hcut := List.takeWhile_append_dropWhile
        (p := fun e => decide (¬ range.Within e)) (l := p.heapFreeList)
      rw [hdrop] at hcut
      have hin : range.Within current := by simpa using not_of_dropWhile_eq_cons hdrop
      obtain ⟨hlo, hhi⟩ := hin
      have hrtop : range.top = range.base + range.size := rfl
      have hctop : current.top = current.base + current.size := rfl
      have htrail := p.remnant_ite (current.top ≠ range.top) range.top current.top
      have hlead := p.remnant_ite (current.base ≠ range.base) current.base range.base
      obtain ⟨rfl, -⟩ := Prod.mk.inj (Option.some.inj hrun)
      generalize (if current.top ≠ range.top then
        p.createFreeEntry range.top current.top else none) = trailing at htrail
      generalize (if current.base ≠ range.base then
        p.createFreeEntry current.base range.base else none) = leading at hlead
      refine h.replace (m := [current]) (n := leading.toList ++ trailing.toList) (r := next)
        hcut.symm (by simp) rfl ?_ ?_ ?_ ?_
      · exact h.keep hcut.symm (remnants_ordered hlead htrail (by omega))
          (remnants_within hlead htrail (fun _ => by omega) fun _ => by omega)
      · simp only [totalSize_append, totalSize_cons, totalSize_nil, hlead.totalSize,
          htrail.totalSize]
        split <;> split <;> omega
      · simp only [List.length_append, List.length_cons, List.length_nil]
        omega
      · intro e he _
        rcases List.mem_append.1 he with he | he
        · exact (hlead.mem he).2.2.2
        · exact (htrail.mem he).2.2.2

/-- What `cutLast` leaves of the entries it is given: parts of some of them, beyond
`highAddress`, and the others as they are. -/
theorem cutLast_spec (p : Pool) (high minimum : ℕ) (rest : List Extent)
    (hrest : ∀ e tail, rest = e :: tail → high < e.top) :
    ∃ m m' ys, rest = m ++ ys ∧ (p.cutLast high minimum rest).1 = m' ++ ys ∧
      AddressOrdered m' ∧ (∀ e' ∈ m', ∃ e ∈ m, e'.Within e) ∧
      (∀ e' ∈ m', p.minimumFreeEntrySize ≤ e'.size) ∧
      (p.cutLast high minimum rest).2.2.1 + totalSize m' = totalSize m ∧
      (p.cutLast high minimum rest).2.2.2 = m.length - m'.length := by
  cases rest with
  | nil => exact ⟨[], [], [], rfl, rfl, AddressOrdered.nil, by simp, by simp, rfl, by simp [cutLast]⟩
  | cons e tail =>
    have htop := hrest e tail rfl
    have hdef : e.top = e.base + e.size := rfl
    simp only [cutLast]
    split
    case isTrue hlt =>
      have hkept := p.remnant_createFreeEntry high e.top
      generalize p.createFreeEntry high e.top = kept at hkept
      refine ⟨[e], kept.toList, tail, rfl, rfl, hkept.ordered, fun e' he' => ?_,
        fun e' he' => (hkept.mem he').2.2.2, ?_, by simp⟩
      · obtain ⟨hbase, hetop, -⟩ := hkept.mem he'
        exact ⟨e, by simp, by omega, by omega⟩
      · rw [hkept.totalSize]
        simp only [totalSize_cons, totalSize_nil]
        split <;> omega
    case isFalse =>
      exact ⟨[], [], e :: tail, rfl, rfl, AddressOrdered.nil, by simp, by simp, rfl, by simp⟩

theorem removeFreeEntriesWithinRange_accounted (h : Accounted p foreign)
    {low high minimum : ℕ} (hle : low ≤ high)
    (hrun : (p.removeFreeEntriesWithinRange low high minimum).1 = p') :
    Accounted p' (p'.foreignAfter (foreign ++ [])) := by
  have hcut := List.takeWhile_append_dropWhile
    (p := fun e : Extent => decide ¬ (low ≤ e.base ∨ low < e.top)) (l := p.heapFreeList)
  have hord := h.ordered
  unfold removeFreeEntriesWithinRange at hrun
  dsimp only at hrun
  split at hrun
  · obtain rfl := hrun
    exact h.unchanged rfl rfl rfl rfl
  · rename_i current next hdrop
    split at hrun
    · obtain rfl := hrun
      exact h.unchanged rfl rfl rfl rfl
    · rename_i hhigh
      have hinside : low ≤ current.base ∨ low < current.top := by
        have := not_of_dropWhile_eq_cons hdrop
        simp only [decide_eq_false_iff_not, not_not] at this
        exact this
      rw [hdrop] at hcut
      have hsplit := List.takeWhile_append_dropWhile
        (p := fun e : Extent => decide (e.top ≤ high)) (l := next)
      obtain ⟨m, m', ys, hrest, hlast, hm', hin, hbuilt, hsize, hcount⟩ :=
        p.cutLast_spec high minimum (next.dropWhile fun e => e.top ≤ high) fun e tail he => by
          simpa using not_of_dropWhile_eq_cons he
      have hctop : current.top = current.base + current.size := rfl
      have htrail := p.remnant_ite (high < current.top) high current.top
      have hlead := p.remnant_ite (current.base < low) current.base low
      have hlsome : (if current.base < low then p.createFreeEntry current.base low
          else none).isSome → current.base < low := of_isSome_ite
      have htsome : (if high < current.top then p.createFreeEntry high current.top
          else none).isSome → high < current.top := of_isSome_ite
      generalize (if high < current.top then p.createFreeEntry high current.top
        else none) = trailing at htrail htsome hrun
      generalize (if current.base < low then p.createFreeEntry current.base low
        else none) = leading at hlead hlsome hrun
      generalize (next.takeWhile fun e => decide (e.top ≤ high)) = whole at hsplit hrun
      generalize p.cutLast high minimum (next.dropWhile fun e => decide (e.top ≤ high)) = last
        at hlast hsize hcount hrun
      generalize (p.heapFreeList.takeWhile fun e => decide ¬ (low ≤ e.base ∨ low < e.top)) =
        previous at hcut hrun
      have hl : p.heapFreeList = previous ++ ((current :: (whole ++ m)) ++ ys) := by
        rw [List.cons_append, List.append_assoc, ← hrest, hsplit, hcut]
      obtain rfl := hrun
      have hkept : AddressOrdered (leading.toList ++ trailing.toList) :=
        remnants_ordered hlead htrail hle
      have hkeptin : ∀ e' ∈ leading.toList ++ trailing.toList, e'.Within current :=
        remnants_within hlead htrail (fun hs => by have := hlsome hs; omega) fun _ => by omega
      have hafter : ∀ b ∈ m, current.top ≤ b.base := by
        intro b hb
        rw [hl] at hord
        exact (AddressOrdered.cons_iff.1 hord.right).2.2 b (by simp [hb])
      refine h.replace (m := current :: (whole ++ m))
        (n := leading.toList ++ trailing.toList ++ m') hl ?_ rfl ?_ ?_ ?_ ?_
      · simp only [hlast, List.append_assoc]
      · refine AddressOrdered.replace (hl ▸ hord) ?_ ?_
        · refine AddressOrdered.append_iff.2 ⟨hkept, hm', fun a ha b hb => ?_⟩
          obtain ⟨e, he, hbe⟩ := hin b hb
          exact (hkeptin a ha).2.trans ((hafter e he).trans hbe.1)
        · intro e' he'
          rcases List.mem_append.1 he' with he' | he'
          · exact ⟨current, by simp, hkeptin e' he'⟩
          · obtain ⟨e, he, hee⟩ := hin e' he'
            exact ⟨e, by simp [he], hee⟩
      · simp only [totalSize_append, totalSize_cons, hlead.totalSize, htrail.totalSize]
        split
        case isTrue hls =>
          have := hlsome hls
          split
          case isTrue hts =>
            have := htsome hts
            omega
          case isFalse => omega
        case isFalse =>
          split
          case isTrue hts =>
            have := htsome hts
            omega
          case isFalse => omega
      · simp only [List.length_append, List.length_cons, hcount]
        push_cast
        omega
      · intro e he _
        rcases List.mem_append.1 he with he | he
        · rcases List.mem_append.1 he with he | he
          · exact (hlead.mem he).2.2.2
          · exact (htrail.mem he).2.2.2
        · exact hbuilt e he

theorem reset_accounted (p : Pool) : Accounted p.reset [] :=
  ⟨AddressOrdered.nil, rfl, rfl, by simp [reset]⟩

theorem rebuildFreeListInRegion_accounted (p : Pool) (low high : ℕ) :
    Accounted (p.rebuildFreeListInRegion low high) [] := by
  unfold rebuildFreeListInRegion
  cases hnew : p.createFreeEntry low high with
  | none => exact reset_accounted p
  | some e =>
    obtain ⟨hbase, htop, hpos, hmin⟩ := freeEntryIn_eq_some hnew
    have hdef : e.top = e.base + e.size := rfl
    refine ⟨AddressOrdered.singleton hpos, ?_, rfl, ?_⟩
    · simp only [totalSize_cons, totalSize_nil]
      omega
    · simpa [reset] using hmin

/-- One step keeps the accounting. -/
theorem step_accounted (h : Accounted p foreign) {op : Op} (hadm : op.Admissible p)
    (hhint : op.HintsLeadOn p) (hstep : p.step op = some p') :
    Accounted p' (p'.foreignAfter (foreign ++ op.handedIn)) := by
  cases op with
  | allocate size =>
    obtain ⟨⟨q, r⟩, hrun, rfl⟩ := Option.map_eq_some_iff.1 hstep
    exact internalAllocate_accounted h hhint hrun
  | allocateTLH maximum =>
    obtain ⟨⟨q, r⟩, hrun, rfl⟩ := Option.map_eq_some_iff.1 hstep
    exact internalAllocateTLH_accounted h hrun
  | recycle chunk =>
    obtain rfl := Option.some.inj hstep
    exact recycleHeapChunk_accounted h hadm
  | expand range canCoalesce =>
    obtain rfl := Option.some.inj hstep
    exact expandWithRange_accounted h hadm
  | contract range =>
    obtain ⟨⟨q, r⟩, hrun, rfl⟩ := Option.map_eq_some_iff.1 hstep
    exact contractWithRange_accounted h hrun
  | addEntries freeList => exact addFreeEntries_accounted h hadm.2.1 hadm.2.2 hstep
  | removeEntries low high minimum =>
    exact removeFreeEntriesWithinRange_accounted h hadm (Option.some.inj hstep)

/-- Along every run in which no allocation follows a misleading hint, the free list is in
order and the counters of the pool agree with it. -/
theorem reaches_accounted (h : Reaches (fun p op => op.HintsLeadOn p) p foreign) :
    Accounted p foreign := by
  induction h with
  | reset p => exact reset_accounted p
  | rebuild p low high => exact rebuildFreeListInRegion_accounted p low high
  | step hrun hadm hcond hstep ih => exact step_accounted ih hadm hcond hstep

/-- A run of operations. -/
def runOps (p : Pool) : List Op → Option Pool
  | [] => some p
  | op :: ops =>
    match p.step op with
    | none => none
    | some p' => p'.runOps ops

/-- Every operation of a run is admissible and meets `C` where it is made. -/
def Admits (C : Pool → Op → Prop) (p : Pool) : List Op → Prop
  | [] => True
  | op :: ops => op.Admissible p ∧ C p op ∧
    match p.step op with
    | none => True
    | some p' => p'.Admits C ops

instance Admits.decidable (C : Pool → Op → Prop) [∀ p op, Decidable (C p op)] (p : Pool) :
    (ops : List Op) → Decidable (p.Admits C ops)
  | [] => inferInstanceAs (Decidable True)
  | op :: ops =>
    have : Decidable (match p.step op with
        | none => True
        | some p' => p'.Admits C ops) :=
      match p.step op with
      | none => inferInstanceAs (Decidable True)
      | some p' => Admits.decidable C p' ops
    inferInstanceAs (Decidable (_ ∧ _ ∧ _))

instance (p : Pool) (op : Op) : Decidable (op.HintsLeadOn p) :=
  match op with
  | .allocate size => inferInstanceAs (Decidable (p.HintLeadsOn size))
  | .allocateTLH _ => inferInstanceAs (Decidable True)
  | .recycle _ => inferInstanceAs (Decidable True)
  | .expand _ _ => inferInstanceAs (Decidable True)
  | .contract _ => inferInstanceAs (Decidable True)
  | .addEntries _ => inferInstanceAs (Decidable True)
  | .removeEntries _ _ _ => inferInstanceAs (Decidable True)

/-- A list of operations, made one after the other, is a run. -/
theorem Reaches.run {C : Pool → Op → Prop} {ops : List Op} (h : Reaches C p foreign)
    (hadm : p.Admits C ops) (hrun : p.runOps ops = some p') : ∃ foreign', Reaches C p' foreign' := by
  induction ops generalizing p foreign with
  | nil =>
    obtain rfl := Option.some.inj hrun
    exact ⟨foreign, h⟩
  | cons op ops ih =>
    obtain ⟨hop, hc, hrest⟩ := hadm
    simp only [runOps] at hrun
    split at hrun
    · simp at hrun
    · rename_i q hq
      rw [hq] at hrest
      exact ih (h.step hop hc hq) hrest hrun

/-- A pool whose smallest entries are as large as a header. -/
def smallPool : Pool := ⟨16, [], 0, 0, 0, HintCache.initHints, 0, 0, 0, 0⟩

/-- Twenty-one small entries and a larger one behind them. -/
def scatteredEntries : List Extent :=
  (List.range 21).map (fun i => ⟨1000 + 100 * i, 16⟩) ++ [⟨3100, 64⟩]

/-- The allocation walks far enough to record a hint for the entry at 3000, and the next
one follows it. -/
def hintedRun : List Op := [.addEntries scatteredEntries, .allocate 32, .allocate 24]

/-- Two allocations, the second of which begins at the hint of the first. -/
theorem reaches_accounted_hintedRun :
    ∃ p foreign, smallPool.reset.runOps hintedRun = some p ∧ p.hints.hintActive ≠ [] ∧
      Reaches (fun p op => op.HintsLeadOn p) p foreign ∧ Accounted p foreign := by
  have hrun : ∃ p, smallPool.reset.runOps hintedRun = some p ∧ p.hints.hintActive ≠ [] := by
    refine ⟨_, rfl, ?_⟩
    decide
  obtain ⟨p, hp, hhints⟩ := hrun
  obtain ⟨foreign, hreach⟩ := (Reaches.reset smallPool).run
    (C := fun p op => op.HintsLeadOn p) (by decide) hp
  exact ⟨p, foreign, hp, hhints, hreach, reaches_accounted hreach⟩

/-- The hinted entry grows before it is used: it is fused with memory behind it. -/
def misledRun : List Op :=
  [.addEntries scatteredEntries, .allocate 32, .expand ⟨3016, 64⟩ true, .allocate 48]

/-- The allocation that follows the hint to the fused entry makes what is left of it the
head of the list, and the twenty entries before it are no longer on the list. -/
theorem misledRun_not_accounted :
    ∃ p foreign, smallPool.reset.runOps misledRun = some p ∧
      p.heapFreeList = [⟨3048, 32⟩, ⟨3132, 32⟩] ∧ p.freeMemorySize = 384 ∧
      Reaches (fun _ _ => True) p foreign ∧ ¬ Accounted p foreign := by
  have hrun : ∃ p, smallPool.reset.runOps misledRun = some p ∧
      p.heapFreeList = [⟨3048, 32⟩, ⟨3132, 32⟩] ∧ p.freeMemorySize = 384 := by
    refine ⟨_, rfl, ?_⟩
    decide
  obtain ⟨p, hp, hlist, hsize⟩ := hrun
  obtain ⟨foreign, hreach⟩ := (Reaches.reset smallPool).run (C := fun _ _ => True) (by decide) hp
  refine ⟨p, foreign, hp, hlist, hsize, hreach, fun h => ?_⟩
  have := h.freeMemorySize_eq
  rw [hlist, hsize] at this
  exact absurd this (by decide)

end OMR.GC.Pool
