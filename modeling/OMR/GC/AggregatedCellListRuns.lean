import OMR.GC.AggregatedCellListSpecs

/-!
# Runs of a segregated pool

From a pool that `reset` or the sweep has set up, every run of allocations, returns, counts and
writes of owners hands each free cell out once. What the counts say of the cells is right only
where the count starts from zero, and the bytes are right only where the current chunk is empty.
-/

namespace OMR.GC.SmallRegion

open OMR.Lib

variable {region : SmallRegion} {free : List ℕ} {s : CellHeap} {chunks : List Extent}

section Counts

variable {m : Headers} {fuel : ℕ}

/-- The loop adds the number of cells of every chunk. -/
theorem addFreeCounts_spec (h : Linked m none chunks) (hfuel : chunks.length < fuel)
    (freeCount : BitVec 64) :
    CellPool.addFreeCounts m region.cellSize fuel (firstOf none chunks) freeCount =
      some (freeCount + BitVec.ofNat 64 (chunks.flatMap region.cellsIn).length) := by
  induction chunks generalizing fuel freeCount with
  | nil =>
    obtain ⟨fuel, rfl⟩ : ∃ k, fuel = k + 1 := ⟨fuel - 1, by omega⟩
    rw [firstOf_nil, CellPool.addFreeCounts, List.flatMap_nil, List.length_nil]
    exact congrArg some (BitVec.add_zero _).symm
  | cons e l ih =>
    obtain ⟨fuel, rfl⟩ : ∃ k, fuel = k + 1 := ⟨fuel - 1, by omega⟩
    have hlength : (region.cellsIn e).length = e.size / region.cellSize := by
      simp [cellsIn]
    rw [firstOf_cons, CellPool.addFreeCounts, h.1, Option.bind_some]
    change CellPool.addFreeCounts m region.cellSize fuel (firstOf none l) _ = _
    rw [ih h.2 (by simpa using hfuel), List.flatMap_cons, List.length_append, hlength,
      BitVec.add_assoc, BitVec.ofNat_add]

theorem addFreeBytes_spec (h : Linked m none chunks) (hfuel : chunks.length < fuel)
    (freeBytes : ℕ) :
    CellPool.addFreeBytes m fuel (firstOf none chunks) freeBytes =
      some (freeBytes + totalSize chunks) := by
  induction chunks generalizing fuel freeBytes with
  | nil =>
    obtain ⟨fuel, rfl⟩ : ∃ k, fuel = k + 1 := ⟨fuel - 1, by omega⟩
    rw [firstOf_nil, CellPool.addFreeBytes, totalSize_nil, Nat.add_zero]
  | cons e l ih =>
    obtain ⟨fuel, rfl⟩ : ∃ k, fuel = k + 1 := ⟨fuel - 1, by omega⟩
    rw [firstOf_cons, CellPool.addFreeBytes, h.1, Option.bind_some]
    change CellPool.addFreeBytes m fuel (firstOf none l) _ = _
    rw [ih h.2 (by simpa using hfuel), totalSize_cons, Nat.add_assoc]

/-- Cells of the region, each listed once, are not more than the region has. -/
theorem FreeCells.length_le (h : FreeCells region free) : free.length ≤ region.numCells := by
  have hsub : free ⊆ (List.range region.numCells).map region.cell := fun a ha => by
    obtain ⟨k, hk, rfl⟩ := h.cell a ha
    exact List.mem_map.2 ⟨k, List.mem_range.2 hk, rfl⟩
  have hle := (h.nodup.subperm hsub).length_le
  rwa [List.length_map, List.length_range] at hle

theorem length_le_cells (h : ∀ e ∈ chunks, region.WholeCells e) :
    chunks.length ≤ (chunks.flatMap region.cellsIn).length := by
  induction chunks with
  | nil => exact Nat.zero_le _
  | cons e l ih =>
    obtain ⟨c, n, hn, -, he⟩ := h e List.mem_cons_self
    have hlength : 0 < (region.cellsIn e).length := by
      rw [he]
      exact List.length_pos_of_mem (mem_cellsIn_runExtent.2 ⟨c, le_rfl, by omega, rfl⟩)
    have := ih fun x hx => h x (List.mem_cons_of_mem _ hx)
    rw [List.flatMap_cons, List.length_append, List.length_cons]
    omega

/-- There is enough fuel, and what is counted fits in a word. -/
theorem Layout.length_lt (h : region.Layout free s chunks) (hfree : FreeCells region free) :
    chunks.length < region.numCells + 1 ∧
      (chunks.flatMap region.cellsIn).length < 2 ^ 64 := by
  have hchunks := length_le_cells h.chunks_linked.whole
  have hcells := h.cells.length_eq
  have hle := hfree.length_le
  have htop := region.top_le
  have hlow := region.lowAddress_pos
  have hsize : region.numCells ≤ region.cellSize * region.numCells :=
    Nat.le_mul_of_pos_left _ region.cellSize_pos
  rw [List.length_append, poolCells, List.length_append] at hcells
  omega

end Counts

section Steps

/-- The test of `updateCounts` for a flush of a pool without free cells. -/
def NothingFree (pool : CellPool) : Prop :=
  pool.freeListHead = none ∧ pool.heapCurrent = pool.heapTop

instance (pool : CellPool) : Decidable (NothingFree pool) := inferInstanceAs (Decidable (_ ∧ _))

theorem updateCounts_spec (h : region.Layout free s chunks) (hfree : FreeCells region free)
    (fromFlush : Bool) :
    ∃ pool' chunks', s.pool.updateCounts region fromFlush = some pool' ∧
      region.Layout free ⟨pool', s.handedOut⟩ chunks' ∧
      pool'.freeCount = if fromFlush ∧ NothingFree s.pool
        then BitVec.ofNat 64 (chunks'.flatMap region.cellsIn).length
        else s.pool.freeCount + BitVec.ofNat 64 (chunks'.flatMap region.cellsIn).length := by
  unfold CellPool.updateCounts
  by_cases hflush : fromFlush ∧ NothingFree s.pool
  · have hnil : chunks = [] := by
      cases chunks with
      | nil => rfl
      | cons e l => exact absurd (h.chunks_linked.head.symm.trans hflush.2.1) (Option.some_ne_none _)
    subst hnil
    refine ⟨{ s.pool with freeCount := 0 }, [], if_pos hflush,
      ⟨⟨h.chunks_linked.head, h.chunks_linked.linked, h.chunks_linked.whole⟩, h.current_whole,
        h.cells⟩, ?_⟩
    rw [if_pos hflush]
    rfl
  · have hlayout := (flushCurrent_spec h hfree).1
    have hfuel := (hlayout.length_lt hfree).1
    obtain ⟨hchunks, hchunk, hcells⟩ := hlayout
    have hcount : CellPool.addFreeCounts s.pool.flushCurrent.headers region.cellSize
        (region.numCells + 1) (firstOf none (flushedChunks s.pool chunks))
        s.pool.flushCurrent.freeCount = _ := addFreeCounts_spec hchunks.linked hfuel _
    have hsame : s.pool.flushCurrent.freeCount = s.pool.freeCount := by
      unfold CellPool.flushCurrent
      split <;> rfl
    obtain ⟨counted, hcounted⟩ : ∃ n, n = s.pool.freeCount +
      BitVec.ofNat 64 ((flushedChunks s.pool chunks).flatMap region.cellsIn).length := ⟨_, rfl⟩
    refine ⟨{ s.pool.flushCurrent with freeCount := counted }, flushedChunks s.pool chunks, ?_,
      ⟨⟨hchunks.head, hchunks.linked, hchunks.whole⟩, hchunk, hcells⟩, ?_⟩
    · refine (if_neg hflush).trans ?_
      have hcount' : CellPool.addFreeCounts s.pool.flushCurrent.headers region.cellSize
          (region.numCells + 1) s.pool.flushCurrent.freeListHead
          s.pool.flushCurrent.freeCount = some counted := by
        rw [hchunks.head, hcount, hsame, hcounted]
      exact congrArg (Option.map _) hcount'
    · rw [if_neg hflush]
      exact hcounted

theorem debugCountFreeBytes_spec (h : region.Layout free s chunks) (hfree : FreeCells region free) :
    s.pool.debugCountFreeBytes region = some (totalSize chunks + s.pool.current.size / 8) := by
  unfold CellPool.debugCountFreeBytes
  rw [h.chunks_linked.head, addFreeBytes_spec h.chunks_linked.linked (h.length_lt hfree).1,
    Nat.zero_add]
  rfl

/-- Every permitted operation returns, and hands each free cell out once. -/
theorem exec_layout (h : region.Layout free s chunks) (hfree : FreeCells region free)
    {op : CellOp} (hop : region.Permitted s op) :
    ∃ s' chunks', region.exec s op = some s' ∧ region.Layout free s' chunks' := by
  cases op with
  | preAllocateCells desiredBytes =>
    obtain ⟨pool', chunks', list, bytes, hrun, hlayout, -⟩ := preAllocateCells_spec h hfree desiredBytes
    refine ⟨_, chunks', ?_, hlayout⟩
    rw [exec, hrun]
    rfl
  | returnCell cell => exact ⟨_, _, rfl, returnCell_spec h hfree hop⟩
  | updateCounts fromFlush =>
    obtain ⟨pool', chunks', hrun, hlayout, -⟩ := updateCounts_spec h hfree fromFlush
    refine ⟨_, chunks', ?_, hlayout⟩
    rw [exec, hrun]
    rfl
  | debugCountFreeBytes =>
    refine ⟨s, chunks, ?_, h⟩
    rw [exec, debugCountFreeBytes_spec h hfree]
    rfl
  | write base size =>
    obtain ⟨cell, hcell, hwithin⟩ := hop
    exact ⟨_, chunks, rfl, write_spec h hfree hcell hwithin⟩

end Steps

section SetUps

/-- Chunks that are apart have no cell in common. -/
theorem cellsIn_disjoint {e e' : Extent} (h : region.WholeCells e) (h' : region.WholeCells e')
    (hapart : e.Apart e') : (region.cellsIn e).Disjoint (region.cellsIn e') := by
  obtain ⟨c, n, hn, -, rfl⟩ := h
  obtain ⟨d, m, hm, -, rfl⟩ := h'
  intro a ha ha'
  obtain ⟨k, hck, hkn, rfl⟩ := mem_cellsIn_runExtent.1 ha
  obtain ⟨j, hdj, hjm, hkj⟩ := mem_cellsIn_runExtent.1 ha'
  obtain rfl := cell_injective hkj
  unfold Extent.Apart at hapart
  rw [region.runExtent_top, region.runExtent_top] at hapart
  rcases hapart with hle | hle
  · have := region.cell_lt_cell (show k < c + n by omega)
    have := region.cell_le_cell hdj
    change region.cell (c + n) ≤ region.cell d at hle
    omega
  · have := region.cell_lt_cell (show k < d + m by omega)
    have := region.cell_le_cell hck
    change region.cell (d + m) ≤ region.cell c at hle
    omega

theorem cellsIn_nodup {e : Extent} (h : region.WholeCells e) : (region.cellsIn e).Nodup := by
  obtain ⟨c, n, hn, -, rfl⟩ := h
  refine (List.nodup_range).map fun i j hij => ?_
  have hpos := region.cellSize_pos
  exact Nat.eq_of_mul_eq_mul_right hpos (Nat.add_left_cancel hij)

/-- Chunks of whole cells, apart from each other. -/
theorem freeCells_of_apart (hwhole : ∀ e ∈ chunks, region.WholeCells e)
    (hapart : chunks.Pairwise Extent.Apart) :
    FreeCells region (chunks.flatMap region.cellsIn) := by
  constructor
  · refine List.nodup_flatMap.2 ⟨fun e he => cellsIn_nodup (hwhole e he), ?_⟩
    exact hapart.imp_of_mem fun he he' h => cellsIn_disjoint (hwhole _ he) (hwhole _ he') h
  · intro a ha
    obtain ⟨e, he, hae⟩ := List.mem_flatMap.1 ha
    obtain ⟨c, n, -, hle, rfl⟩ := hwhole e he
    obtain ⟨k, -, hk, rfl⟩ := mem_cellsIn_runExtent.1 hae
    exact ⟨k, by omega, rfl⟩

/-- What `reset` and the sweep leave. -/
theorem SetUp.layout {pool : CellPool} (h : region.SetUp pool chunks) :
    region.Layout (chunks.flatMap region.cellsIn) ⟨pool, []⟩ chunks ∧
      FreeCells region (chunks.flatMap region.cellsIn) := by
  have hempty : ∀ {pool : CellPool}, pool.heapCurrent = pool.heapTop → ∀ {chunks : List Extent},
      ([] ++ region.poolCells pool chunks).Perm (chunks.flatMap region.cellsIn) := by
    intro pool heq chunks
    unfold poolCells
    rw [current_of_eq heq, cellsIn_empty]
    exact List.Perm.refl _
  cases h with
  | @reset pool₀ _ hreset =>
    have hrun : (⟨region.lowAddress, region.cellSize * region.numCells⟩ : Extent) =
        region.runExtent 0 region.numCells := by
      unfold SegregatedRegion.runExtent SegregatedRegion.cell
      rw [Nat.mul_zero, Nat.add_zero, Nat.mul_comm]
    have hwhole : region.WholeCells ⟨region.lowAddress, region.cellSize * region.numCells⟩ :=
      ⟨0, region.numCells, region.numCells_pos, by omega, hrun⟩
    have hone : ∀ e ∈ [(⟨region.lowAddress, region.cellSize * region.numCells⟩ : Extent)],
        region.WholeCells e := by
      intro e he
      rw [List.mem_singleton.1 he]
      exact hwhole
    have hfits : ¬ region.cellSize * region.numCells < sizeofFreeHeader :=
      Nat.not_lt.2 hwhole.header_le
    unfold CellPool.reset Headers.fillWithHoles at hreset
    rw [if_neg hfits] at hreset
    simp only [if_true, Headers.setNext, Function.update_self, Option.map_some,
      Option.some_inj] at hreset
    subst hreset
    exact ⟨⟨⟨rfl, ⟨Function.update_self .., trivial⟩, hone⟩, Or.inl rfl, hempty rfl⟩,
      freeCells_of_apart hone (List.pairwise_singleton ..)⟩
  | @sweep map minimumFreeEntrySize isFixHeapForWalk acl acl' holes darkMatterCells _ hbase hsweep hmem =>
    obtain ⟨swept, _, _, hrun, hlisted, hdescending, -⟩ := region.sweepSmallRegion_exact map hbase
      minimumFreeEntrySize isFixHeapForWalk acl
    rw [hsweep, Option.some_inj, Prod.mk.injEq] at hrun
    obtain ⟨rfl, -⟩ := hrun
    have hwhole : ∀ e ∈ acl'.freeList, region.WholeCells e := by
      intro e he
      obtain ⟨c, n, hempty, -, rfl⟩ := (hlisted e).1 he
      exact ⟨c, n, hempty.pos, hempty.le, rfl⟩
    have hcurrent : pool.heapCurrent = pool.heapTop := by
      unfold SegregatedRegion.sweepSmallRegion at hsweep
      obtain ⟨last, -, hlast⟩ := Option.map_eq_some_iff.1 hsweep
      rw [hmem.heapCurrent_eq, hmem.heapTop_eq, ← (Prod.mk.inj hlast).1]
      rfl
    exact ⟨⟨⟨hmem.freeListHead_eq, hmem.linked, hwhole⟩, Or.inl hcurrent, hempty hcurrent⟩,
      freeCells_of_apart hwhole (hdescending.imp fun h => Or.inr h)⟩

end SetUps

section Runs

/-- What is handed out, the current chunk and the linked chunks. -/
def pieces (region : SmallRegion) (s : CellHeap) (chunks : List Extent) : List Extent :=
  s.handedOut.map (fun cell => ⟨cell, region.cellSize⟩) ++ s.pool.current :: chunks

/-- What `preAllocateCells` returns: `NULL` iff every free cell is handed out, or whole cells of
at most the desired size, unless one cell is larger. -/
def Returns (region : SmallRegion) (free : List ℕ) (s : CellHeap) (desiredBytes : ℕ) : Prop :=
  ∃ pool list bytes,
    s.pool.preAllocateCells region.cellSize desiredBytes = some (pool, list, bytes) ∧
    (list = none ↔ ∀ cell ∈ free, cell ∈ s.handedOut) ∧
    (list ≠ none → 0 < bytes ∧ region.cellSize ∣ bytes ∧ bytes ≤ max desiredBytes region.cellSize)

/-- Every initially free cell is in one place, and no byte in two. -/
def Sound (region : SmallRegion) (free : List ℕ) (s : CellHeap) : Prop :=
  ∃ chunks, region.Layout free s chunks ∧
    (region.pieces s chunks).Pairwise fun a b => Disjoint a.bytes b.bytes

/-- The heap is sound after an operation, and an allocation has returned what it should. -/
def Allocated (region : SmallRegion) (free : List ℕ) (s : CellHeap) (op : CellOp)
    (s' : CellHeap) : Prop :=
  region.Sound free s' ∧
    ∀ desiredBytes, op = .preAllocateCells desiredBytes → region.Returns free s desiredBytes

theorem Layout.apart (h : region.Layout free s chunks) (hfree : FreeCells region free) :
    (region.pieces s chunks).Pairwise fun a b => Disjoint a.bytes b.bytes := by
  have hout : ∀ cells : List ℕ, (∀ cell ∈ cells, cell ∈ s.handedOut) →
      (cells.map fun cell => (⟨cell, region.cellSize⟩ : Extent)).flatMap region.cellsIn = cells := by
    intro cells hcells
    induction cells with
    | nil => rfl
    | cons cell cells ih =>
      rw [List.map_cons, List.flatMap_cons, ih fun x hx => hcells x (List.mem_cons_of_mem _ hx),
        (h.cell_apart hfree (hcells cell List.mem_cons_self)).2.1]
      rfl
  have hnodup : ((region.pieces s chunks).flatMap region.cellsIn).Nodup := by
    rw [pieces, List.flatMap_append, hout _ fun _ hcell => hcell, List.flatMap_cons]
    exact h.cells.nodup_iff.2 hfree.nodup
  have hwhole : ∀ e ∈ region.pieces s chunks, e.bytes = ∅ ∨ region.WholeCells e := by
    intro e he
    rcases List.mem_append.1 he with he | he
    · obtain ⟨cell, hcell, rfl⟩ := List.mem_map.1 he
      exact Or.inr (h.cell_apart hfree hcell).1
    · rcases List.mem_cons.1 he with rfl | he
      · rcases h.current_whole with hempty | ⟨c, n, hn, hle, hcurrent, htop⟩
        · rw [current_of_eq hempty]
          exact Or.inl (Set.Ico_self _)
        · exact Or.inr ⟨c, n, hn, hle, current_of_run hcurrent htop⟩
      · exact Or.inr (h.chunks_linked.whole e he)
  refine (List.nodup_flatMap.1 hnodup).2.imp_of_mem fun {a b} ha hb hdisjoint => ?_
  rcases hwhole a ha with hempty | ha
  · rw [hempty]
    exact Set.empty_disjoint _
  rcases hwhole b hb with hempty | hb
  · rw [hempty]
    exact Set.disjoint_empty _
  exact (ha.apart hb hdisjoint).disjoint

theorem preAllocateCells_returns (h : region.Layout free s chunks) (hfree : FreeCells region free)
    (desiredBytes : ℕ) : region.Returns free s desiredBytes := by
  obtain ⟨pool', -, list, bytes, hrun, -, hnone, hsome⟩ := preAllocateCells_spec h hfree desiredBytes
  refine ⟨pool', list, bytes, hrun, hnone.trans ⟨fun hnil cell hcell => ?_, fun hall => ?_⟩, hsome⟩
  · have hmem := h.cells.symm.subset hcell
    rw [hnil, List.append_nil] at hmem
    exact hmem
  · refine List.eq_nil_iff_forall_not_mem.2 fun cell hcell => ?_
    have hmem : cell ∈ free := h.cells.subset (List.mem_append_right _ hcell)
    exact (h.disjoint hfree).1 (hall cell hmem) hcell

/-- A layout is kept by every permitted operation. -/
def HasLayout (region : SmallRegion) (free : List ℕ) (s : CellHeap) : Prop :=
  ∃ chunks, region.Layout free s chunks

theorem HasLayout.step (hfree : FreeCells region free) {op : CellOp} (h : HasLayout region free s)
    (hop : region.Permitted s op) : ∃ s', region.exec s op = some s' ∧ HasLayout region free s' := by
  obtain ⟨chunks, hlayout⟩ := h
  obtain ⟨s', chunks', hexec, hlayout'⟩ := exec_layout hlayout hfree hop
  exact ⟨s', hexec, chunks', hlayout'⟩

/-- Every run from a pool that is set up returns, keeps every initially free cell in one place,
and hands out cells as long as there are any. -/
theorem cellAllocation_sound (region : SmallRegion) {pool : CellPool} {chunks : List Extent}
    (hsetUp : region.SetUp pool chunks) (ops : List CellOp)
    (hops : EveryStep region.exec region.Permitted ⟨pool, []⟩ ops) :
    region.Sound (chunks.flatMap region.cellsIn) ⟨pool, []⟩ ∧
    EveryStepKeeps region.exec (region.Allocated (chunks.flatMap region.cellsIn)) ⟨pool, []⟩ ops := by
  obtain ⟨hlayout, hfree⟩ := hsetUp.layout
  have hinv : HasLayout region (chunks.flatMap region.cellsIn) ⟨pool, []⟩ := ⟨chunks, hlayout⟩
  have hkeeps : EveryStepKeeps region.exec (region.Allocated (chunks.flatMap region.cellsIn))
      ⟨pool, []⟩ ops ↔ EveryStep region.exec (fun _ _ => True) ⟨pool, []⟩ ops := by
    refine everyStepKeeps_iff (fun s op hs hop => iff_of_true ?_ trivial)
      (fun s op s' hs hop _ hexec => ?_) hinv hops
    · obtain ⟨chunks₀, hlayout₀⟩ := hs
      obtain ⟨s', chunks', hexec, hlayout'⟩ := exec_layout hlayout₀ hfree hop
      exact ⟨s', hexec, ⟨chunks', hlayout', hlayout'.apart hfree⟩,
        fun desiredBytes _ => preAllocateCells_returns hlayout₀ hfree desiredBytes⟩
    · obtain ⟨s'', hexec', h''⟩ := hs.step hfree hop
      rw [hexec, Option.some_inj] at hexec'
      exact hexec' ▸ h''
  exact ⟨⟨chunks, hlayout, hlayout.apart hfree⟩, hkeeps.2 (everyStep_true _ ops)⟩

theorem header_le_fourCells : sizeofFreeHeader ≤ 32 := by decide

theorem top_le_fourCells : 4096 + 32 * 4 ≤ 2 ^ 64 := by decide

/-- Four cells of 32 bytes each. -/
def fourCells : SmallRegion where
  lowAddress := 4096
  cellSize := 32
  numCells := 4
  lowAddress_pos := Nat.succ_pos _
  cellSize_pos := Nat.succ_pos _
  numCells_pos := Nat.succ_pos _
  header_le := header_le_fourCells
  top_le := top_le_fourCells

/-- A pool whose memory holds no header. -/
def emptyPool : CellPool := ⟨fun _ => none, none, none, none, 0, 0⟩

theorem cellAllocation_sound_fourCells : ∃ pool, fourCells.SetUp pool [⟨4096, 128⟩] ∧
    EveryStepKeeps fourCells.exec (fourCells.Allocated [4096, 4128, 4160, 4192]) ⟨pool, []⟩
      [.preAllocateCells 70, .updateCounts true, .preAllocateCells 1] := by
  have hsetUp : fourCells.SetUp _ [⟨4096, 128⟩] :=
    @SetUp.reset fourCells emptyPool _ rfl
  exact ⟨_, hsetUp, (cellAllocation_sound fourCells hsetUp _
    (by simp [EveryStep, Permitted])).2⟩

end Runs

section Accounting

/-- The linked chunks are given by the head. -/
theorem linked_unique {m : Headers} {l l' : List Extent} (h : Linked m none l)
    (h' : Linked m none l') (heq : firstOf none l = firstOf none l') : l = l' := by
  induction l generalizing l' with
  | nil =>
    cases l' with
    | nil => rfl
    | cons e' l' => cases heq
  | cons e l ih =>
    cases l' with
    | nil => cases heq
    | cons e' l' =>
      have hbase : e.base = e'.base := Option.some_inj.1 heq
      have hheader := h.1.symm.trans (hbase ▸ h'.1)
      obtain ⟨hnext, hsize⟩ := FreeHeader.mk.inj (Option.some_inj.1 hheader)
      rw [ih h.2 h'.2 hnext, Extent.ext hbase hsize]

/-- The counts after an operation: a flush leaves the number of cells on the free list as the
count, and the bytes that are counted are those of the linked chunks and the current one. -/
def Accounted (region : SmallRegion) (free : List ℕ) (s : CellHeap) (op : CellOp)
    (s' : CellHeap) : Prop :=
  ∃ chunks, region.Layout free s' chunks ∧
    (op = .updateCounts true →
      s'.pool.freeCount.toNat = (chunks.flatMap region.cellsIn).length) ∧
    (op = .debugCountFreeBytes →
      s.pool.debugCountFreeBytes region = some (totalSize chunks + s.pool.current.size))

/-- The flush starts from a count of zero or finds nothing free, and bytes are counted while the
current chunk is empty. -/
def CountsMeet (s : CellHeap) (op : CellOp) : Prop :=
  (op = .updateCounts true → s.pool.freeCount = 0 ∨ NothingFree s.pool) ∧
  (op = .debugCountFreeBytes → s.pool.heapCurrent = s.pool.heapTop)

instance (s : CellHeap) (op : CellOp) : Decidable (CountsMeet s op) :=
  inferInstanceAs (Decidable (_ ∧ _))

/-- One operation. -/
theorem accounted_iff (h : region.Layout free s chunks) (hfree : FreeCells region free)
    {op : CellOp} (hop : region.Permitted s op) :
    (∃ s', region.exec s op = some s' ∧ region.Accounted free s op s') ↔ CountsMeet s op := by
  by_cases hflush : op = .updateCounts true
  · subst hflush
    obtain ⟨pool', chunks', hrun, hlayout, hcount⟩ := updateCounts_spec h hfree true
    have hexec : region.exec s (.updateCounts true) = some ⟨pool', s.handedOut⟩ := by
      rw [exec, hrun]
      rfl
    have hword : ∀ {chunks : List Extent}, region.Layout free ⟨pool', s.handedOut⟩ chunks →
        (pool'.freeCount.toNat = (chunks.flatMap region.cellsIn).length ↔
          pool'.freeCount = BitVec.ofNat 64 (chunks.flatMap region.cellsIn).length) := by
      intro chunks hchunks
      rw [← BitVec.toNat_inj, BitVec.toNat_ofNat, Nat.mod_eq_of_lt (hchunks.length_lt hfree).2]
    constructor
    · rintro ⟨s', hs', chunks'', hlayout', hcount', -⟩
      obtain rfl := Option.some_inj.1 (hexec.symm.trans hs')
      refine ⟨fun _ => ?_, fun hop => (by cases hop)⟩
      have hsame : chunks'' = chunks' := linked_unique hlayout'.chunks_linked.linked
        hlayout.chunks_linked.linked
        (hlayout'.chunks_linked.head.symm.trans hlayout.chunks_linked.head)
      have hword' := (hword hlayout').1 (hcount' rfl)
      by_cases hnothing : NothingFree s.pool
      · exact Or.inr hnothing
      · rw [if_neg fun hboth => hnothing hboth.2, hword', hsame] at hcount
        exact Or.inl (BitVec.add_left_eq_self.1 hcount.symm)
    · rintro ⟨hmeets, -⟩
      refine ⟨_, hexec, chunks', hlayout, fun _ => (hword hlayout).2 ?_, fun hop => (by cases hop)⟩
      rw [hcount]
      split
      · rfl
      · next hnot =>
        have hzero := (hmeets rfl).resolve_right fun hnothing => hnot ⟨rfl, hnothing⟩
        rw [hzero]
        exact BitVec.zero_add _
  by_cases hdebug : op = .debugCountFreeBytes
  · subst hdebug
    have hspec := debugCountFreeBytes_spec h hfree
    have hcurrent : s.pool.current.size = 0 ↔ s.pool.heapCurrent = s.pool.heapTop := by
      rw [← h.current_whole.not_lt, not_lt]
      exact Nat.sub_eq_zero_iff_le
    have hexec : region.exec s .debugCountFreeBytes = some s := by
      rw [exec, hspec]
      rfl
    constructor
    · rintro ⟨s', hs', chunks', hlayout, -, hbytes⟩
      obtain rfl := Option.some_inj.1 (hexec.symm.trans hs')
      refine ⟨fun hop => (by cases hop), fun _ => hcurrent.1 ?_⟩
      have hspec' := debugCountFreeBytes_spec hlayout hfree
      rw [hbytes rfl, Option.some_inj] at hspec'
      omega
    · rintro ⟨-, hempty⟩
      refine ⟨s, hexec, chunks, h, fun hop => (by cases hop), fun _ => ?_⟩
      rw [hspec, hcurrent.2 (hempty rfl)]
  obtain ⟨s', chunks', hexec, hlayout⟩ := exec_layout h hfree hop
  exact iff_of_true
    ⟨s', hexec, chunks', hlayout, fun hop => absurd hop hflush, fun hop => absurd hop hdebug⟩
    ⟨fun hop => absurd hop hflush, fun hop => absurd hop hdebug⟩

theorem accounted_run_iff (h : region.Layout free s chunks) (hfree : FreeCells region free)
    {ops : List CellOp} (hops : EveryStep region.exec region.Permitted s ops) :
    EveryStepKeeps region.exec (region.Accounted free) s ops ↔
      EveryStep region.exec CountsMeet s ops := by
  have hinv : HasLayout region free s := ⟨chunks, h⟩
  refine everyStepKeeps_iff (fun s op hs hop => ?_) (fun s op s' hs hop _ hexec => ?_) hinv hops
  · obtain ⟨chunks₀, hlayout₀⟩ := hs
    exact accounted_iff hlayout₀ hfree hop
  · obtain ⟨s'', hexec', h''⟩ := hs.step hfree hop
    rw [hexec, Option.some_inj] at hexec'
    exact hexec' ▸ h''

/-- Along every run, each flush leaves the number of cells on the free list and each count of the
bytes is right, exactly if each flush starts from a count of zero or finds nothing free and the
bytes are counted while the current chunk is empty. -/
theorem cellAccounting_iff (region : SmallRegion) {pool : CellPool} {chunks : List Extent}
    (hsetUp : region.SetUp pool chunks) (ops : List CellOp)
    (hops : EveryStep region.exec region.Permitted ⟨pool, []⟩ ops) :
    EveryStepKeeps region.exec (region.Accounted (chunks.flatMap region.cellsIn)) ⟨pool, []⟩ ops ↔
      EveryStep region.exec CountsMeet ⟨pool, []⟩ ops :=
  accounted_run_iff hsetUp.layout.1 hsetUp.layout.2 hops

theorem cellAccounting_iff_fourCells : ∃ pool, fourCells.SetUp pool [⟨4096, 128⟩] ∧
    EveryStepKeeps fourCells.exec (fourCells.Accounted [4096, 4128, 4160, 4192]) ⟨pool, []⟩
      [.updateCounts true, .debugCountFreeBytes, .preAllocateCells 32] := by
  have hsetUp : fourCells.SetUp _ [⟨4096, 128⟩] :=
    @SetUp.reset fourCells emptyPool _ rfl
  exact ⟨_, hsetUp, (cellAccounting_iff fourCells hsetUp _
    (by simp [EveryStep, Permitted])).2 (by decide +kernel)⟩

/-- The second flush adds the three cells that are left to the four that the first one has counted,
and the three cells that are left in the current chunk are counted as 12 bytes. -/
theorem cellAccounting_fails : ∃ pool, fourCells.SetUp pool [⟨4096, 128⟩] ∧
    ¬ EveryStepKeeps fourCells.exec (fourCells.Accounted [4096, 4128, 4160, 4192]) ⟨pool, []⟩
      [.updateCounts true, .preAllocateCells 32, .updateCounts true] ∧
    ¬ EveryStepKeeps fourCells.exec (fourCells.Accounted [4096, 4128, 4160, 4192]) ⟨pool, []⟩
      [.preAllocateCells 32, .debugCountFreeBytes] := by
  have hsetUp : fourCells.SetUp _ [⟨4096, 128⟩] :=
    @SetUp.reset fourCells emptyPool _ rfl
  obtain ⟨hlayout, hfree⟩ := hsetUp.layout
  refine ⟨_, hsetUp, fun h => ?_, fun h => ?_⟩
  · exact absurd ((accounted_run_iff hlayout hfree (by simp [EveryStep, Permitted])).1 h)
      (by decide +kernel)
  · exact absurd ((accounted_run_iff hlayout hfree (by simp [EveryStep, Permitted])).1 h)
      (by decide +kernel)

end Accounting

end OMR.GC.SmallRegion
