import OMR.GC.SweepSmallRegion

/-!
# The sweep of a small region is exact

In front of every cell that the loop reaches, the free list holds the maximal runs of unmarked
cells that have ended, and the free chunk is the run that has not. A skipped block lies between
two words of the map that the loop has read, so that all cells of it are unmarked and the last
cell of the region is never passed.
-/

namespace OMR.GC.SegregatedRegion

open OMR.Lib

variable (region : SegregatedRegion) (map : HeapMap)

section Cells

theorem cell_le_cell {i j : ℕ} (h : i ≤ j) : region.cell i ≤ region.cell j :=
  Nat.add_le_add_left (Nat.mul_le_mul_left _ h) _

theorem cell_lt_cell {i j : ℕ} (h : i < j) : region.cell i < region.cell j :=
  Nat.add_lt_add_left ((Nat.mul_lt_mul_left region.cellSize_pos).2 h) _

theorem cell_add (i n : ℕ) : region.cell (i + n) = region.cell i + n * region.cellSize := by
  unfold cell
  ring

theorem le_lastCellAddress_iff {i : ℕ} :
    region.cell i ≤ region.lastCellAddress ↔ i < region.numCells := by
  have hpos := region.numCells_pos
  unfold lastCellAddress
  constructor
  · intro hle
    by_contra hge
    have := region.cell_lt_cell (show region.numCells - 1 < i by omega)
    omega
  · intro hlt
    exact region.cell_le_cell (by omega)

theorem runExtent_top (c n : ℕ) : (region.runExtent c n).top = region.cell (c + n) :=
  (region.cell_add c n).symm

theorem runExtent_cells (c n : ℕ) : (region.runExtent c n).size / region.cellSize = n :=
  Nat.mul_div_cancel n region.cellSize_pos

end Cells

section Blocks

variable {map}

/-- The inner loop ends at the last word or in front of the first word with a bit. -/
theorem skipEmptySlots_spec (map : HeapMap) (last : ℕ) : ∀ fuel slotIndex, slotIndex + fuel = last →
    slotIndex ≤ skipEmptySlots map last fuel slotIndex ∧
    skipEmptySlots map last fuel slotIndex ≤ last ∧
    ∀ j, slotIndex ≤ j → j < skipEmptySlots map last fuel slotIndex → map.slot j = 0#64
  | 0, slotIndex, h => by
    refine ⟨le_rfl, h.le, fun j hle hlt => ?_⟩
    exact absurd (hle.trans_lt hlt) (lt_irrefl _)
  | fuel + 1, slotIndex, h => by
    rw [skipEmptySlots]
    split
    next hempty =>
      obtain ⟨hlo, hhi, hzero⟩ := skipEmptySlots_spec map last fuel (slotIndex + 1) (by omega)
      refine ⟨by omega, hhi, fun j hle hlt => ?_⟩
      rcases Nat.eq_or_lt_of_le hle with rfl | hgt
      · exact hempty.1
      · exact hzero j hgt hlt
    next =>
      refine ⟨le_rfl, by omega, fun j hle hlt => ?_⟩
      exact absurd (hle.trans_lt hlt) (lt_irrefl _)

theorem isBitSet_eq_false_of_slot {objectPtr : ℕ}
    (h : map.slot (map.getSlotIndex objectPtr) = 0#64) : map.isBitSet objectPtr = false := by
  rw [map.isBitSet_eq, h, BitVec.getLsbD_zero]

theorem getSlotIndex_mono {a b : ℕ} (h : a ≤ b) : map.getSlotIndex a ≤ map.getSlotIndex b := by
  simp only [HeapMap.getSlotIndex, Nat.shiftRight_eq_div_pow]
  exact Nat.div_le_div_right (Nat.sub_le_sub_right h _)

/-- The addresses below the first cell of a word have their bits in the words before it. -/
theorem lt_getFirstCellByMarkSlotIndex {a slotIndex : ℕ} (h : map.heapBase ≤ a) :
    a < map.getFirstCellByMarkSlotIndex slotIndex ↔ map.getSlotIndex a < slotIndex := by
  rw [HeapMap.getFirstCellByMarkSlotIndex, HeapMap.getSlotIndex, Nat.shiftRight_eq_div_pow,
    Nat.shiftLeft_eq, Nat.div_lt_iff_lt_mul (Nat.two_pow_pos _)]
  omega

/-- A block begins at the current cell, has unmarked cells only and ends in the region. -/
theorem numCellsInBlock_spec (hbase : map.heapBase ≤ region.lowAddress) {i : ℕ}
    (hi : i < region.numCells) (hunmarked : map.isBitSet (region.cell i) = false) :
    0 < region.numCellsInBlock map (region.cell i) ∧
    i + region.numCellsInBlock map (region.cell i) ≤ region.numCells ∧
    ∀ k, i ≤ k → k < i + region.numCellsInBlock map (region.cell i) →
      map.isBitSet (region.cell k) = false := by
  have hcell : ∀ k, map.heapBase ≤ region.cell k := fun k => hbase.trans (Nat.le_add_right ..)
  unfold numCellsInBlock
  simp only []
  split
  next hempty =>
    obtain ⟨hlo, hhi, hzero⟩ := skipEmptySlots_spec map (region.lastCellSlotIndex map)
      (region.lastCellSlotIndex map - (map.getSlotIndex (region.cell i) + 1))
      (map.getSlotIndex (region.cell i) + 1) (by omega)
    revert hlo hhi hzero
    generalize skipEmptySlots map _ _ _ = slotIndex
    intro hlo hhi hzero
    have hnext : region.cell i < map.getFirstCellByMarkSlotIndex slotIndex :=
      (lt_getFirstCellByMarkSlotIndex (hcell i)).2 (by omega)
    revert hnext
    generalize hnextCell : map.getFirstCellByMarkSlotIndex slotIndex = nextCell
    intro hnext
    -- every cell of the block begins below the word at which the inner loop has ended
    have hbelow : ∀ k, i ≤ k → k < i + ((nextCell - 1 - region.cell i) / region.cellSize + 1) →
        map.getSlotIndex (region.cell k) < slotIndex := by
      intro k hik hk
      rw [← lt_getFirstCellByMarkSlotIndex (hcell k), hnextCell]
      obtain ⟨j, rfl⟩ := Nat.exists_eq_add_of_le hik
      have hj : j ≤ (nextCell - 1 - region.cell i) / region.cellSize := by omega
      have hmul : j * region.cellSize ≤ nextCell - 1 - region.cell i :=
        (Nat.le_div_iff_mul_le region.cellSize_pos).1 hj
      rw [region.cell_add]
      omega
    refine ⟨Nat.succ_pos _, ?_, fun k hik hk => isBitSet_eq_false_of_slot ?_⟩
    · by_contra hover
      have hlast := hbelow (region.numCells - 1) (by omega) (by omega)
      have : map.getSlotIndex (region.cell (region.numCells - 1)) =
        region.lastCellSlotIndex map := rfl
      omega
    · have hlt := hbelow k hik hk
      have hge : map.getSlotIndex (region.cell i) ≤ map.getSlotIndex (region.cell k) :=
        getSlotIndex_mono (region.cell_le_cell hik)
      rcases Nat.eq_or_lt_of_le hge with heq | hgt
      · rw [← heq]
        exact hempty.1
      · exact hzero _ hgt hlt
  next =>
    refine ⟨Nat.one_pos, hi, fun k hik hk => ?_⟩
    obtain rfl : k = i := by omega
    exact hunmarked

end Blocks

/-- The extents of the maximal runs that end before cell `i` and are long enough for the list. -/
def Listed (minimumFreeEntrySize i : ℕ) (e : Extent) : Prop :=
  ∃ c n, region.EmptyRun map c n ∧ c + n < i ∧ minimumFreeEntrySize ≤ n * region.cellSize ∧
    e = region.runExtent c n

/-- What the pool says about the runs that end before cell `i`. -/
structure PoolExact (minimumFreeEntrySize i : ℕ) (pool : AggregatedCellList) : Prop where
  mem_iff : ∀ e, e ∈ pool.freeList ↔ region.Listed map minimumFreeEntrySize i e
  descending : pool.freeList.Pairwise fun a b => b.top ≤ a.base
  freeCount : pool.freeCount = (pool.freeList.map fun e => e.size / region.cellSize).sum

/-- The state of the loop in front of cell `i`. -/
structure Swept (minimumFreeEntrySize i : ℕ) (s : SweepState) : Prop where
  pool : region.PoolExact map minimumFreeEntrySize i s.memoryPoolACL
  le : i ≤ region.numCells
  closed : s.freeChunk = none → ∀ k, k + 1 = i → map.isBitSet (region.cell k) = true
  started : ∀ chunk, s.freeChunk = some chunk → ∃ c n, region.StartedRun map c n ∧ c + n = i ∧
    chunk = ⟨region.cell c, n * region.cellSize, n⟩
  markCount : s.memoryPoolACL.markCount =
    (List.range i).countP fun k => map.isBitSet (region.cell k)
  counts : s.memoryPoolACL.markCount + s.memoryPoolACL.freeCount +
    (s.freeChunk.map FreeChunk.cellCount).getD 0 ≤ i

variable {region map} {minimumFreeEntrySize i : ℕ} {s : SweepState}

/-- A run that begins after a listed one has ended begins above it. -/
theorem Listed.top_le {e : Extent} (h : region.Listed map minimumFreeEntrySize i e) {c n : ℕ}
    (hrun : region.StartedRun map c n) (hi : c + n = i) (hle : i ≤ region.numCells) :
    e.top ≤ region.cell c := by
  obtain ⟨c', n', hrun', hend, -, rfl⟩ := h
  rw [runExtent_top]
  refine region.cell_le_cell ?_
  by_contra hgt
  have hset := hrun'.after (by omega)
  rw [hrun.unmarked (c' + n') (by omega) (by omega)] at hset
  cases hset

/-- Two runs of which one ends where the other does are the same. -/
theorem StartedRun.eq_of_end {c n c' n' : ℕ} (h : region.StartedRun map c n)
    (h' : region.StartedRun map c' n') (hend : c + n = c' + n') : c = c' ∧ n = n' := by
  have hpos := h.pos
  have hpos' := h'.pos
  rcases Nat.lt_trichotomy c c' with hlt | heq | hgt
  · have hset := h'.before (c' - 1) (by omega)
    rw [h.unmarked (c' - 1) (by omega) (by omega)] at hset
    cases hset
  · exact ⟨heq, by omega⟩
  · have hset := h.before (c - 1) (by omega)
    rw [h'.unmarked (c - 1) (by omega) (by omega)] at hset
    cases hset

/-- No run ends inside a block of unmarked cells. -/
theorem listed_block {n : ℕ} (hle : i + n ≤ region.numCells)
    (hunmarked : ∀ k, i ≤ k → k < i + n → map.isBitSet (region.cell k) = false) (e : Extent) :
    region.Listed map minimumFreeEntrySize (i + n) e ↔
      region.Listed map minimumFreeEntrySize i e := by
  constructor
  · rintro ⟨c, m, hrun, hend, hsize, rfl⟩
    refine ⟨c, m, hrun, ?_, hsize, rfl⟩
    by_contra hge
    have hset := hrun.after (by omega)
    rw [hunmarked (c + m) (by omega) (by omega)] at hset
    cases hset
  · rintro ⟨c, m, hrun, hend, hsize, rfl⟩
    exact ⟨c, m, hrun, by omega, hsize, rfl⟩

section EndOfChunk

variable {isFixHeapForWalk : Bool}

theorem endFreeChunk_freeChunk :
    (endFreeChunk minimumFreeEntrySize isFixHeapForWalk s).freeChunk = none := by
  unfold endFreeChunk
  split
  next hnone => exact hnone
  next => split_ifs <;> rfl

theorem endFreeChunk_markCount :
    (endFreeChunk minimumFreeEntrySize isFixHeapForWalk s).memoryPoolACL.markCount =
      s.memoryPoolACL.markCount := by
  unfold endFreeChunk
  split
  next => rfl
  next => split_ifs <;> rfl

/-- Without a free chunk, the runs that end at the cell are those that end before it. -/
theorem listed_succ_of_closed (hclosed : ∀ k, k + 1 = i → map.isBitSet (region.cell k) = true)
    (e : Extent) : region.Listed map minimumFreeEntrySize (i + 1) e ↔
      region.Listed map minimumFreeEntrySize i e := by
  constructor
  · rintro ⟨c, n, hrun, hend, hsize, rfl⟩
    refine ⟨c, n, hrun, ?_, hsize, rfl⟩
    by_contra hge
    have hpos := hrun.pos
    have hset := hclosed (c + n - 1) (by omega)
    rw [hrun.unmarked (c + n - 1) (by omega) (by omega)] at hset
    cases hset
  · rintro ⟨c, n, hrun, hend, hsize, rfl⟩
    exact ⟨c, n, hrun, by omega, hsize, rfl⟩

/-- With a free chunk, it is the one run that ends at the cell. -/
theorem listed_succ_of_run {c n : ℕ} (hrun : region.EmptyRun map c n) (hi : c + n = i)
    (e : Extent) : region.Listed map minimumFreeEntrySize (i + 1) e ↔
      (minimumFreeEntrySize ≤ n * region.cellSize ∧ e = region.runExtent c n) ∨
        region.Listed map minimumFreeEntrySize i e := by
  constructor
  · rintro ⟨c', n', hrun', hend, hsize, rfl⟩
    rcases Nat.lt_or_ge (c' + n') i with hlt | hge
    · exact .inr ⟨c', n', hrun', hlt, hsize, rfl⟩
    · obtain ⟨rfl, rfl⟩ := hrun.toStartedRun.eq_of_end hrun'.toStartedRun (by omega)
      exact .inl ⟨hsize, rfl⟩
  · rintro (⟨hsize, rfl⟩ | ⟨c', n', hrun', hend, hsize, rfl⟩)
    · exact ⟨c, n, hrun, by omega, hsize, rfl⟩
    · exact ⟨c', n', hrun', by omega, hsize, rfl⟩

/-- Where a run ends, the pool gets to know it. -/
theorem Swept.endOfRun (h : region.Swept map minimumFreeEntrySize i s)
    (isFixHeapForWalk : Bool)
    (hend : i < region.numCells → map.isBitSet (region.cell i) = true) :
    region.PoolExact map minimumFreeEntrySize (i + 1)
      (endFreeChunk minimumFreeEntrySize isFixHeapForWalk s).memoryPoolACL ∧
    (endFreeChunk minimumFreeEntrySize isFixHeapForWalk s).memoryPoolACL.markCount +
      (endFreeChunk minimumFreeEntrySize isFixHeapForWalk
        s).memoryPoolACL.freeCount ≤ i := by
  have hcounts := h.counts
  unfold endFreeChunk
  split
  next hnone =>
    refine ⟨⟨fun e => ?_, h.pool.descending, h.pool.freeCount⟩, by omega⟩
    rw [listed_succ_of_closed (h.closed hnone), h.pool.mem_iff]
  next chunk hsome =>
    obtain ⟨c, n, hstarted, hi, rfl⟩ := h.started chunk hsome
    have hrun : region.EmptyRun map c n :=
      ⟨hstarted, hi ▸ h.le, fun hlt => by rw [hi] at hlt ⊢; exact hend hlt⟩
    have hcells : s.memoryPoolACL.markCount + s.memoryPoolACL.freeCount + n ≤ i := by
      rwa [hsome, Option.map_some, Option.getD_some] at hcounts
    split
    next hsize =>
      refine ⟨⟨fun e => ?_, ?_, ?_⟩, ?_⟩
      · rw [listed_succ_of_run hrun hi, AggregatedCellList.addFreeChunk, List.mem_cons,
          h.pool.mem_iff]
        exact or_congr_left ⟨fun he => ⟨hsize, he⟩, fun he => he.2⟩
      · refine List.pairwise_cons.2 ⟨fun e he => ?_, h.pool.descending⟩
        exact ((h.pool.mem_iff e).1 he).top_le hstarted hi h.le
      · simp only [AggregatedCellList.addFreeChunk, List.map_cons, List.sum_cons,
          h.pool.freeCount]
        have hn := region.runExtent_cells c n
        simp only [runExtent] at hn
        omega
      · change s.memoryPoolACL.markCount + (s.memoryPoolACL.freeCount + n) ≤ i
        omega
    next hsmall =>
      have hpool : region.PoolExact map minimumFreeEntrySize (i + 1) s.memoryPoolACL := by
        refine ⟨fun e => ?_, h.pool.descending, h.pool.freeCount⟩
        rw [listed_succ_of_run hrun hi, h.pool.mem_iff]
        exact ⟨.inr, fun he => he.resolve_left fun hin => hsmall hin.1⟩
      split
      next => exact ⟨hpool, by simp only []; omega⟩
      next => exact ⟨hpool, by simp only []; omega⟩

end EndOfChunk

/-- The step over a marked cell. -/
theorem Swept.marked (h : region.Swept map minimumFreeEntrySize i s) (hi : i < region.numCells)
    (hset : map.isBitSet (region.cell i) = true) (isFixHeapForWalk : Bool) :
    region.Swept map minimumFreeEntrySize (i + 1)
      (countMarked (endFreeChunk minimumFreeEntrySize isFixHeapForWalk s)) := by
  obtain ⟨hpool, hcounts⟩ := h.endOfRun isFixHeapForWalk fun _ => hset
  have hnone : (countMarked (endFreeChunk minimumFreeEntrySize isFixHeapForWalk
      s)).freeChunk = none := endFreeChunk_freeChunk
  refine ⟨⟨hpool.mem_iff, hpool.descending, hpool.freeCount⟩, hi, fun _ k hk => ?_,
    fun chunk hsome => ?_, ?_, ?_⟩
  · obtain rfl : k = i := by omega
    exact hset
  · rw [hnone] at hsome
    cases hsome
  · rw [List.range_succ, List.countP_append, List.countP_singleton, if_pos hset]
    change (endFreeChunk _ _ s).memoryPoolACL.markCount + 1 = _
    rw [endFreeChunk_markCount, h.markCount]
  · rw [hnone, Option.map_none, Option.getD_none]
    simp only [countMarked, AggregatedCellList.setMarkCount]
    omega

/-- The step over a block of unmarked cells. -/
theorem Swept.block (h : region.Swept map minimumFreeEntrySize i s) {n : ℕ} (hn : 0 < n)
    (hle : i + n ≤ region.numCells)
    (hunmarked : ∀ k, i ≤ k → k < i + n → map.isBitSet (region.cell k) = false) :
    region.Swept map minimumFreeEntrySize (i + n)
      (region.extendFreeChunk (region.cell i) n s) := by
  have hcounts := h.counts
  refine ⟨⟨fun e => ?_, h.pool.descending, h.pool.freeCount⟩, hle, fun hnone => ?_,
    fun chunk hsome => ?_, ?_, ?_⟩
  · rw [listed_block hle hunmarked]
    exact h.pool.mem_iff e
  · cases hnone
  · simp only [extendFreeChunk, Option.some.injEq] at hsome
    subst hsome
    cases hchunk : s.freeChunk with
    | none =>
      refine ⟨i, n, ⟨hn, hunmarked, fun k hk => h.closed hchunk k hk⟩, rfl, ?_⟩
      simp
    | some chunk =>
      obtain ⟨c, m, hrun, hi, rfl⟩ := h.started chunk hchunk
      refine ⟨c, m + n, ⟨by omega, fun k hck hk => ?_, hrun.before⟩, by omega, ?_⟩
      · rcases Nat.lt_or_ge k i with hlt | hge
        · exact hrun.unmarked k hck (by omega)
        · exact hunmarked k hge (by omega)
      · simp [Nat.add_mul]
  · change s.memoryPoolACL.markCount = _
    rw [List.range_add, List.countP_append, h.markCount, List.countP_map]
    have hzero : (List.range n).countP
        ((fun k => map.isBitSet (region.cell k)) ∘ fun k => i + k) = 0 := by
      refine List.countP_eq_zero.2 fun k hk => ?_
      have := hunmarked (i + k) (Nat.le_add_right ..) (by rw [List.mem_range] at hk; omega)
      simp [this]
    omega
  · change s.memoryPoolACL.markCount + s.memoryPoolACL.freeCount +
      ((s.freeChunk.getD ⟨region.cell i, 0, 0⟩).cellCount + n) ≤ i + n
    cases hchunk : s.freeChunk with
    | none =>
      rw [hchunk, Option.map_none, Option.getD_none] at hcounts
      rw [Option.getD_none]
      simp only []
      omega
    | some chunk =>
      rw [hchunk, Option.map_some, Option.getD_some] at hcounts
      rw [Option.getD_some]
      omega

/-- The loop ends behind the last cell. -/
theorem sweepCells_spec (minimumFreeEntrySize : ℕ) (hbase : map.heapBase ≤ region.lowAddress)
    (isFixHeapForWalk : Bool) :
    ∀ fuel i s, region.numCells < i + fuel → region.Swept map minimumFreeEntrySize i s →
      ∃ s', region.sweepCells map minimumFreeEntrySize isFixHeapForWalk fuel (region.cell i) s =
          some s' ∧
        region.Swept map minimumFreeEntrySize region.numCells s'
  | 0, i, s, hfuel, h => absurd h.le (by omega)
  | fuel + 1, i, s, hfuel, h => by
    rw [sweepCells]
    by_cases hi : i < region.numCells
    · rw [if_pos (region.le_lastCellAddress_iff.2 hi)]
      cases hset : map.isBitSet (region.cell i) with
      | true =>
        have hnext : region.cell i + region.cellSize = region.cell (i + 1) := by
          rw [region.cell_add, Nat.one_mul]
        rw [if_pos rfl, hnext]
        exact sweepCells_spec minimumFreeEntrySize hbase isFixHeapForWalk fuel (i + 1) _ (by omega)
          (h.marked hi hset isFixHeapForWalk)
      | false =>
        obtain ⟨hpos, hle, hunmarked⟩ := region.numCellsInBlock_spec hbase hi hset
        simp only [Bool.false_eq_true, if_false, ← region.cell_add]
        exact sweepCells_spec minimumFreeEntrySize hbase isFixHeapForWalk fuel _ _ (by omega)
          (h.block hpos hle hunmarked)
    · have hlast : i = region.numCells := le_antisymm h.le (by omega)
      rw [if_neg fun hle => hi (region.le_lastCellAddress_iff.1 hle)]
      exact ⟨s, rfl, hlast ▸ h⟩

theorem swept_zero (pool : AggregatedCellList) :
    region.Swept map minimumFreeEntrySize 0 ⟨pool.resetCounts.resetFreeList, [], none⟩ := by
  refine ⟨⟨fun e => ?_, List.Pairwise.nil, rfl⟩, Nat.zero_le _, fun _ k hk => ?_,
    fun chunk hsome => ?_, rfl, le_rfl⟩
  · constructor
    · intro he
      cases he
    · rintro ⟨c, n, -, hlt, -⟩
      exact absurd hlt (Nat.not_lt_zero _)
  · exact absurd hk (Nat.succ_ne_zero k)
  · cases hsome

/-- After the sweep of a region of which the counts are reset, the free list is that of the maximal
runs of unmarked cells that have the minimum size, the highest first, the counts are those of the
marked cells and of the cells listed, and the dark matter is the rest. -/
theorem sweepSmallRegion_exact (region : SegregatedRegion) (map : HeapMap)
    (hbase : map.heapBase ≤ region.lowAddress) (minimumFreeEntrySize : ℕ)
    (isFixHeapForWalk : Bool) (memoryPoolACL : AggregatedCellList) :
    ∃ pool holes darkMatterCells,
      region.sweepSmallRegion map minimumFreeEntrySize isFixHeapForWalk memoryPoolACL.resetCounts =
        some (pool, holes, darkMatterCells) ∧
      (∀ e, e ∈ pool.freeList ↔ ∃ c n, region.EmptyRun map c n ∧
        minimumFreeEntrySize ≤ n * region.cellSize ∧ e = region.runExtent c n) ∧
      (pool.freeList.Pairwise fun a b => b.top ≤ a.base) ∧
      pool.markCount =
        (List.range region.numCells).countP (fun k => map.isBitSet (region.cell k)) ∧
      pool.freeCount = (pool.freeList.map fun e => e.size / region.cellSize).sum ∧
      pool.markCount + pool.freeCount + darkMatterCells = region.numCells := by
  obtain ⟨s, hrun, hswept⟩ := sweepCells_spec minimumFreeEntrySize hbase
    isFixHeapForWalk (region.numCells + 1) 0 _ (by omega) (swept_zero memoryPoolACL)
  obtain ⟨hpool, hcounts⟩ := hswept.endOfRun isFixHeapForWalk
    fun hlt => absurd hlt (lt_irrefl _)
  have hlow : region.cell 0 = region.lowAddress := rfl
  rw [hlow] at hrun
  have hresult := congrArg (Option.map fun s =>
    let s := endFreeChunk minimumFreeEntrySize isFixHeapForWalk s
    let pool := s.memoryPoolACL.resetCurrentEntry
    (pool, s.holes, region.numCells - pool.markCount - pool.freeCount)) hrun
  refine ⟨_, _, _, hresult, fun e => ?_, hpool.descending, ?_, hpool.freeCount, ?_⟩
  · refine (hpool.mem_iff e).trans ⟨?_, ?_⟩
    · rintro ⟨c, n, hempty, -, hsize, rfl⟩
      exact ⟨c, n, hempty, hsize, rfl⟩
    · rintro ⟨c, n, hempty, hsize, rfl⟩
      exact ⟨c, n, hempty, Nat.lt_succ_of_le hempty.le, hsize, rfl⟩
  · exact endFreeChunk_markCount.trans hswept.markCount
  · simp only [AggregatedCellList.resetCurrentEntry]
    omega

/-- Thirty cells of 48 bytes each. -/
def thirtyCells : SegregatedRegion := ⟨4096, 48, 30, by decide, by decide, by decide⟩

/-- The first cell and the last but one are marked, two words of the map apart. -/
def twoMarks : HeapMap :=
  ⟨false, 0, fun i => if i = 8 then 1#64 else if i = 10 then 1#64 <<< 40 else 0#64⟩

theorem sweepSmallRegion_exact_thirtyCells : ∃ pool holes darkMatterCells,
    thirtyCells.sweepSmallRegion twoMarks 64 true
        (AggregatedCellList.resetCounts ⟨[], none, none, 0, 0⟩) =
      some (pool, holes, darkMatterCells) ∧
    pool.markCount + pool.freeCount + darkMatterCells = 30 := by
  obtain ⟨pool, holes, darkMatterCells, hrun, -, -, -, -, hsum⟩ :=
    sweepSmallRegion_exact thirtyCells twoMarks (by decide) 64 true ⟨[], none, none, 0, 0⟩
  exact ⟨pool, holes, darkMatterCells, hrun, hsum⟩

example : (thirtyCells.sweepSmallRegion twoMarks 64 true ⟨[], none, none, 0, 0⟩).map
    (fun r => (r.1.freeList, r.2)) = some ([⟨4144, 1296⟩], [⟨5488, 48⟩], 1) := by
  decide +kernel

end OMR.GC.SegregatedRegion
