import OMR.GC.AggregatedCellList

/-!
# Cells are handed out once

Every operation moves whole cells between those that are handed out, the current chunk and the
linked chunks. Chunks of different cells have no byte in common, so that neither a new header
nor a write to a cell that is handed out destroys the header of a linked chunk.
-/

namespace OMR.GC.SmallRegion

open OMR.Lib

variable {region : SmallRegion}

section Cells

theorem mem_cellsIn_runExtent {c n a : ℕ} :
    a ∈ region.cellsIn (region.runExtent c n) ↔ ∃ k, c ≤ k ∧ k < c + n ∧ a = region.cell k := by
  have hcells := region.runExtent_cells c n
  simp only [cellsIn, hcells, List.mem_map, List.mem_range]
  constructor
  · rintro ⟨i, hi, rfl⟩
    exact ⟨c + i, by omega, by omega, (region.cell_add c i).symm⟩
  · rintro ⟨k, hck, hkn, rfl⟩
    refine ⟨k - c, by omega, ?_⟩
    rw [show k = c + (k - c) by omega, region.cell_add, Nat.add_sub_cancel_left]
    rfl

/-- The cells of a run are those of its two parts. -/
theorem cellsIn_split (c k n : ℕ) :
    region.cellsIn (region.runExtent c (k + n)) =
      region.cellsIn (region.runExtent c k) ++ region.cellsIn (region.runExtent (c + k) n) := by
  simp only [cellsIn, region.runExtent_cells]
  rw [List.range_add, List.map_append, List.map_map]
  congr 1
  refine List.map_congr_left fun i _ => ?_
  simp only [Function.comp_apply, SegregatedRegion.runExtent, region.cell_add]
  ring

theorem cellsIn_empty (base : ℕ) : region.cellsIn ⟨base, 0⟩ = [] := by
  simp [cellsIn]

theorem cellsIn_cell (k : ℕ) : region.cellsIn (region.runExtent k 1) = [region.cell k] := by
  simp only [cellsIn, region.runExtent_cells, List.range_one, List.map_cons, List.map_nil]
  simp [SegregatedRegion.runExtent]

theorem cell_injective {i j : ℕ} (h : region.cell i = region.cell j) : i = j := by
  rcases lt_trichotomy i j with hlt | heq | hgt
  · exact absurd h (region.cell_lt_cell hlt).ne
  · exact heq
  · exact absurd h.symm (region.cell_lt_cell hgt).ne

/-- Runs without a common cell have no byte in common. -/
theorem runExtent_apart {c n d m : ℕ} (hn : 0 < n) (hm : 0 < m)
    (h : (region.cellsIn (region.runExtent c n)).Disjoint (region.cellsIn (region.runExtent d m))) :
    (region.runExtent c n).Apart (region.runExtent d m) := by
  have hdisjoint : ∀ k, c ≤ k → k < c + n → d ≤ k → k < d + m → False := fun k h1 h2 h3 h4 =>
    h (mem_cellsIn_runExtent.2 ⟨k, h1, h2, rfl⟩) (mem_cellsIn_runExtent.2 ⟨k, h3, h4, rfl⟩)
  have hcase : c + n ≤ d ∨ d + m ≤ c := by
    by_contra hnot
    push Not at hnot
    exact hdisjoint (max c d) (le_max_left ..) (by omega) (le_max_right ..) (by omega)
  unfold Extent.Apart
  rw [region.runExtent_top, region.runExtent_top]
  exact hcase.imp (fun hle => region.cell_le_cell hle) fun hle => region.cell_le_cell hle

theorem WholeCells.header_le {e : Extent} (h : region.WholeCells e) :
    sizeofFreeHeader ≤ e.size := by
  obtain ⟨c, n, hn, -, rfl⟩ := h
  exact region.header_le.trans (Nat.le_mul_of_pos_left _ hn)

theorem WholeCells.apart {e e' : Extent} (h : region.WholeCells e) (h' : region.WholeCells e')
    (hdisjoint : (region.cellsIn e).Disjoint (region.cellsIn e')) : e.Apart e' := by
  obtain ⟨c, n, hn, -, rfl⟩ := h
  obtain ⟨d, m, hm, -, rfl⟩ := h'
  exact runExtent_apart hn hm hdisjoint

end Cells

section Headers

variable {m : Headers} {chunks : List Extent} {base size : ℕ} {next : Option ℕ}

/-- A write apart from the linked chunks leaves them linked. -/
theorem linked_clobber (h : Linked m none chunks) (hwhole : ∀ e ∈ chunks, region.WholeCells e)
    (hapart : ∀ e ∈ chunks, e.Apart ⟨base, size⟩) : Linked (m.clobber base size) none chunks :=
  h.congr fun e he => Headers.clobber_of_apart (hwhole e he).header_le (hapart e he)

/-- A chunk is linked in front of others that it is apart from. -/
theorem linked_writeHeader (h : Linked m none chunks) (hwhole : ∀ e ∈ chunks, region.WholeCells e)
    (hsize : sizeofFreeHeader ≤ size) (hapart : ∀ e ∈ chunks, e.Apart ⟨base, size⟩) :
    Linked (m.writeHeader base ⟨firstOf none chunks, size⟩) none (⟨base, size⟩ :: chunks) := by
  constructor
  · exact Function.update_self ..
  · refine h.congr fun e he => ?_
    have hheader : e.Apart ⟨base, sizeofFreeHeader⟩ := by
      have := hapart e he
      simp only [Extent.Apart, Extent.top] at this ⊢
      omega
    have hne : e.base ≠ base := Entries.base_ne (hapart e he) (hwhole e he).header_le hsize
    exact (Function.update_of_ne hne ..).trans
      (Headers.clobber_of_apart (hwhole e he).header_le hheader)

end Headers

section Pool

variable {pool : CellPool} {chunks : List Extent}

theorem current_of_run {c n : ℕ} (hcurrent : pool.heapCurrent = some (region.cell c))
    (htop : pool.heapTop = some (region.cell (c + n))) : pool.current = region.runExtent c n := by
  unfold CellPool.current SegregatedRegion.runExtent
  rw [hcurrent, htop, region.cell_add]
  simp [address]

theorem current_of_eq (h : pool.heapCurrent = pool.heapTop) :
    pool.current = ⟨address pool.heapCurrent, 0⟩ := by
  unfold CellPool.current
  rw [h, Nat.sub_self]

/-- The first of the linked chunks becomes the current chunk. -/
theorem refreshCurrentEntry_spec (h : region.Chunks pool chunks) :
    ∃ pool', pool.refreshCurrentEntry = some pool' ∧ region.Chunks pool' chunks.tail ∧
      region.CurrentChunk pool' ∧
      region.poolCells pool' chunks.tail = chunks.flatMap region.cellsIn ∧
      (pool'.heapCurrent = pool'.heapTop → chunks = [] ∧ pool'.heapCurrent = none) := by
  cases chunks with
  | nil =>
    have hhead : pool.freeListHead = none := h.head
    refine ⟨{ pool with heapCurrent := none, heapTop := none }, ?_, ⟨h.head, h.linked, h.whole⟩,
      Or.inl rfl, ?_,
      fun _ => ⟨rfl, rfl⟩⟩
    · unfold CellPool.refreshCurrentEntry
      rw [hhead]
    · exact congrArg (· ++ _) (cellsIn_empty 0)
  | cons e l =>
    have hhead : pool.freeListHead = some e.base := h.head
    obtain ⟨c, n, hn, hle, he⟩ := h.whole e List.mem_cons_self
    let pool' : CellPool := { pool with
      heapCurrent := some e.base, heapTop := some (e.base + e.size), freeListHead := firstOf none l }
    have hbase : pool'.heapCurrent = some (region.cell c) := by
      change some e.base = _
      rw [he]
      rfl
    have htop : pool'.heapTop = some (region.cell (c + n)) := by
      rw [← region.runExtent_top, ← he]
      rfl
    refine ⟨pool', ?_, ⟨rfl, h.linked.2, fun x hx => h.whole x (List.mem_cons_of_mem _ hx)⟩,
      Or.inr ⟨c, n, hn, hle, hbase, htop⟩, ?_, fun heq => ?_⟩
    · unfold CellPool.refreshCurrentEntry
      rw [hhead]
      change (pool.headers e.base).map _ = _
      rw [h.linked.1]
      rfl
    · unfold poolCells
      rw [current_of_run hbase htop, ← he]
      rfl
    · rw [hbase, htop, Option.some_inj] at heq
      have := region.cell_lt_cell (show c < c + n by omega)
      omega

/-- Filling the rest of the current chunk keeps the headers of the linked ones. -/
theorem linked_fillWithHoles {m : Headers} {base size : ℕ} (h : Linked m none chunks)
    (hwhole : ∀ e ∈ chunks, region.WholeCells e) (hapart : ∀ e ∈ chunks, e.Apart ⟨base, size⟩) :
    Linked (m.fillWithHoles base size).1 none chunks :=
  h.congr fun e he => Headers.fillWithHoles_of_apart (hwhole e he).header_le (hapart e he)

/-- Chunks of other cells are apart. -/
theorem Chunks.apart (h : region.Chunks pool chunks) {e : Extent} (he : region.WholeCells e)
    (hdisjoint : (chunks.flatMap region.cellsIn).Disjoint (region.cellsIn e)) :
    ∀ x ∈ chunks, x.Apart e := fun x hx =>
  (h.whole x hx).apart he fun _ ha => hdisjoint (List.mem_flatMap.2 ⟨x, hx, ha⟩)

/-- Cells are taken from the front of the current chunk, as many as are wanted or all of them. -/
theorem takeCells_spec (h : region.Chunks pool chunks) {c n : ℕ} (hn : 0 < n)
    (hle : c + n ≤ region.numCells) (hcurrent : pool.heapCurrent = some (region.cell c))
    (htop : pool.heapTop = some (region.cell (c + n)))
    (hdisjoint : (chunks.flatMap region.cellsIn).Disjoint (region.cellsIn pool.current))
    {count bytes : ℕ} (hcount : 0 < count) (hbytes : count * region.cellSize ≤ bytes) :
    ∃ pool' chunks' k, pool.takeCells count bytes region.cellSize =
        some (pool', some (region.cell c), k * region.cellSize) ∧
      0 < k ∧ k * region.cellSize ≤ bytes ∧
      region.Chunks pool' chunks' ∧ region.CurrentChunk pool' ∧
      region.cellsIn (region.runExtent c k) ++ region.poolCells pool' chunks' =
        region.poolCells pool chunks := by
  have havailable : address pool.heapTop - address pool.heapCurrent = n * region.cellSize := by
    rw [hcurrent, htop, region.cell_add]
    exact Nat.add_sub_cancel_left ..
  have hrun := current_of_run hcurrent htop
  have hpos := region.cellSize_pos
  unfold CellPool.takeCells
  rw [havailable]
  by_cases hlt : n * region.cellSize > bytes
  · have hkn : count < n := lt_of_mul_lt_mul_right (hbytes.trans_lt hlt) (Nat.zero_le _)
    obtain ⟨rest, rfl⟩ : ∃ rest, n = count + rest := ⟨n - count, by omega⟩
    have hmid : address pool.heapCurrent + count * region.cellSize = region.cell (c + count) := by
      rw [hcurrent, region.cell_add]
      rfl
    have htop' : address pool.heapTop = region.cell (c + count + rest) := by
      rw [htop, add_assoc]
      rfl
    have hsize : region.cell (c + count + rest) - region.cell (c + count) =
        rest * region.cellSize := by
      rw [region.cell_add (c + count) rest, Nat.add_sub_cancel_left]
    have hcells : region.cellsIn (region.runExtent c (count + rest)) = _ :=
      cellsIn_split c count rest
    have hapart : ∀ e ∈ chunks, e.Apart (region.runExtent (c + count) rest) := by
      refine h.apart ⟨c + count, rest, by omega, by omega, rfl⟩ fun a ha hrest => hdisjoint ha ?_
      rw [hrun, hcells]
      exact List.mem_append_right _ hrest
    let filled := pool.headers.fillWithHoles (region.cell (c + count)) (rest * region.cellSize)
    let pool' : CellPool :=
      { pool with headers := filled.1, heapCurrent := some (region.cell (c + count)) }.addBytesAllocated
        (count * region.cellSize)
    have hcurrent' : pool'.heapCurrent = some (region.cell (c + count)) := rfl
    have htopRest : pool'.heapTop = some (region.cell (c + count + rest)) := by
      change pool.heapTop = _
      rw [htop, add_assoc]
    refine ⟨pool', chunks, count, ?_, hcount, hbytes,
      ⟨h.head, linked_fillWithHoles h.linked h.whole hapart, h.whole⟩,
      Or.inr ⟨c + count, rest, by omega, by omega, hcurrent', htopRest⟩, ?_⟩
    · rw [if_pos hlt]
      simp only [hmid, htop', hsize]
      rw [hcurrent]
    · unfold poolCells
      rw [current_of_run hcurrent' htopRest, hrun, hcells, List.append_assoc]
  · obtain ⟨refreshed, hrefresh, hchunks, hchunk, hcells, -⟩ := refreshCurrentEntry_spec h
    refine ⟨refreshed.addBytesAllocated (n * region.cellSize), chunks.tail, n, ?_, hn, by omega,
      ⟨hchunks.head, hchunks.linked, hchunks.whole⟩, hchunk, ?_⟩
    · rw [if_neg hlt, hrefresh, hcurrent]
      rfl
    · have hpool : region.poolCells pool chunks = region.cellsIn (region.runExtent c n) ++
          chunks.flatMap region.cellsIn := by
        unfold poolCells
        rw [hrun]
      rw [hpool, ← hcells]
      rfl

end Pool

section Operations

variable {free : List ℕ} {s : CellHeap} {chunks : List Extent}

/-- Cells of the region, each listed once. -/
structure FreeCells (region : SmallRegion) (free : List ℕ) : Prop where
  nodup : free.Nodup
  cell : ∀ a ∈ free, ∃ k < region.numCells, a = region.cell k

/-- No free cell is handed out, and the cells of the linked chunks are not in the current one. -/
theorem Layout.disjoint (h : region.Layout free s chunks) (hfree : FreeCells region free) :
    s.handedOut.Disjoint (region.poolCells s.pool chunks) ∧
      (chunks.flatMap region.cellsIn).Disjoint (region.cellsIn s.pool.current) := by
  have hnodup := h.cells.nodup_iff.2 hfree.nodup
  obtain ⟨-, hpool, hout⟩ := List.nodup_append'.1 hnodup
  exact ⟨hout, (List.nodup_append'.1 hpool).2.2.symm⟩

/-- An empty current chunk is replaced by the first of the linked ones, if there is one. -/
theorem refreshIfEmpty_spec {pool : CellPool} (h : region.Chunks pool chunks)
    (hcurrent : region.CurrentChunk pool) :
    ∃ pool' chunks', (if pool.heapCurrent = pool.heapTop then pool.refreshCurrentEntry
        else some pool) = some pool' ∧
      region.Chunks pool' chunks' ∧ region.CurrentChunk pool' ∧
      region.poolCells pool' chunks' = region.poolCells pool chunks ∧
      (pool'.heapCurrent = pool'.heapTop → chunks' = [] ∧ pool'.heapCurrent = none) := by
  by_cases hempty : pool.heapCurrent = pool.heapTop
  · obtain ⟨pool', hrefresh, hchunks, hchunk, hcells, hnone⟩ := refreshCurrentEntry_spec h
    have hpool : region.poolCells pool chunks = chunks.flatMap region.cellsIn := by
      unfold poolCells
      rw [current_of_eq hempty, cellsIn_empty, List.nil_append]
    refine ⟨pool', chunks.tail, by rw [if_pos hempty, hrefresh], hchunks, hchunk,
      hcells.trans hpool.symm, fun heq => ?_⟩
    obtain ⟨rfl, hcurrent'⟩ := hnone heq
    exact ⟨rfl, hcurrent'⟩
  · exact ⟨pool, chunks, if_neg hempty, h, hcurrent, rfl, fun heq => absurd heq hempty⟩

/-- The wanted cells are at least one, and no more than is desired unless one cell is. -/
theorem adjusted_spec (region : SmallRegion) (desiredBytes : ℕ) {adjusted : ℕ × ℕ}
    (h : adjusted = if desiredBytes / region.cellSize = 0 then (1, region.cellSize)
      else (desiredBytes / region.cellSize, desiredBytes)) :
    0 < adjusted.1 ∧ adjusted.1 * region.cellSize ≤ adjusted.2 ∧
      adjusted.2 ≤ max desiredBytes region.cellSize := by
  subst h
  split
  · exact ⟨one_pos, (one_mul _).le, le_max_right ..⟩
  · next hne => exact ⟨Nat.pos_of_ne_zero hne, Nat.div_mul_le_self .., le_max_left ..⟩

/-- `NULL` is returned when there is no free cell; otherwise whole cells are handed out. -/
theorem preAllocateCells_spec (h : region.Layout free s chunks) (hfree : FreeCells region free)
    (desiredBytes : ℕ) :
    ∃ pool' chunks' list bytes,
      s.pool.preAllocateCells region.cellSize desiredBytes = some (pool', list, bytes) ∧
      region.Layout free ⟨pool', s.handedOut ++ region.cellsIn ⟨address list, bytes⟩⟩ chunks' ∧
      (list = none ↔ region.poolCells s.pool chunks = []) ∧
      (list ≠ none → 0 < bytes ∧ region.cellSize ∣ bytes ∧
        bytes ≤ max desiredBytes region.cellSize) := by
  obtain ⟨pool, chunks₁, hrefresh, hchunks, hchunk, hcells, hnone⟩ :=
    refreshIfEmpty_spec h.chunks_linked h.current_whole
  obtain ⟨adjusted, hadjusted⟩ : ∃ adjusted : ℕ × ℕ, adjusted =
    if desiredBytes / region.cellSize = 0 then (1, region.cellSize)
    else (desiredBytes / region.cellSize, desiredBytes) := ⟨_, rfl⟩
  obtain ⟨hcount, hbytes, hmax⟩ := adjusted_spec region desiredBytes hadjusted
  have hrun : s.pool.preAllocateCells region.cellSize desiredBytes =
      pool.takeCells adjusted.1 adjusted.2 region.cellSize := by
    unfold CellPool.preAllocateCells
    rw [hrefresh, hadjusted]
    rfl
  have hlayout : region.Layout free ⟨pool, s.handedOut⟩ chunks₁ :=
    ⟨hchunks, hchunk, by rw [hcells]; exact h.cells⟩
  rcases hchunk with hempty | ⟨c, n, hn, hle, hcurrent, htop⟩
  · -- nothing is left: the current chunk is refreshed again, and is `NULL` again
    obtain ⟨rfl, hcurrent⟩ := hnone hempty
    obtain ⟨pool', hrefresh', hchunks', hchunk', hcells', -⟩ := refreshCurrentEntry_spec hchunks
    have hpool : region.poolCells pool [] = [] := by
      unfold poolCells
      rw [current_of_eq hempty, cellsIn_empty]
      rfl
    have hcells'' : region.poolCells pool' [] = [] := hcells'
    refine ⟨pool'.addBytesAllocated 0, [], none, 0, ?_, ⟨⟨hchunks'.head, hchunks'.linked,
      hchunks'.whole⟩, hchunk', ?_⟩, iff_of_true rfl (hcells ▸ hpool), fun hne => absurd rfl hne⟩
    · rw [hrun, CellPool.takeCells, hempty, Nat.sub_self, if_neg (Nat.not_lt_zero _), hrefresh',
        ← hempty, hcurrent]
      rfl
    · have hcells₀ := hlayout.cells
      rw [hpool] at hcells₀
      change (s.handedOut ++ region.cellsIn ⟨0, 0⟩ ++ region.poolCells pool' []).Perm free
      rw [cellsIn_empty, List.append_nil, hcells'']
      exact hcells₀
  · obtain ⟨pool', chunks', k, htake, hk, hle', hchunks', hchunk', hcells'⟩ :=
      takeCells_spec hchunks hn hle hcurrent htop (hlayout.disjoint hfree).2 hcount hbytes
    have hpos := region.cellSize_pos
    refine ⟨pool', chunks', some (region.cell c), k * region.cellSize, hrun.trans htake,
      ⟨hchunks', hchunk', ?_⟩, iff_of_false (Option.some_ne_none _) fun hnil => ?_,
      fun _ => ⟨Nat.mul_pos hk hpos, Dvd.intro_left k rfl, hle'.trans hmax⟩⟩
    · have hcells₀ := hlayout.cells
      rw [← hcells', ← List.append_assoc] at hcells₀
      exact hcells₀
    · have hmem : region.cell c ∈ region.cellsIn (region.runExtent c k) :=
        mem_cellsIn_runExtent.2 ⟨c, le_rfl, by omega, rfl⟩
      rw [← hcells, ← hcells'] at hnil
      exact List.not_mem_nil (hnil ▸ List.mem_append_left _ hmem)

/-- A cell that is handed out, as a chunk, and apart from the linked ones. -/
theorem Layout.cell_apart (h : region.Layout free s chunks) (hfree : FreeCells region free)
    {cell : ℕ} (hcell : cell ∈ s.handedOut) :
    region.WholeCells ⟨cell, region.cellSize⟩ ∧ region.cellsIn ⟨cell, region.cellSize⟩ = [cell] ∧
      ∀ e ∈ chunks, e.Apart ⟨cell, region.cellSize⟩ := by
  obtain ⟨k, hk, rfl⟩ := hfree.cell cell (h.cells.subset (List.mem_append_left _ hcell))
  have hrun : (⟨region.cell k, region.cellSize⟩ : Extent) = region.runExtent k 1 := by
    unfold SegregatedRegion.runExtent
    rw [one_mul]
  have hwhole : region.WholeCells (region.runExtent k 1) := ⟨k, 1, one_pos, by omega, rfl⟩
  have hone : region.cellsIn (region.runExtent k 1) = _ := cellsIn_cell k
  rw [hrun]
  refine ⟨hwhole, hone, h.chunks_linked.apart hwhole fun a ha hmem => ?_⟩
  rw [hone] at hmem
  rw [List.mem_singleton.1 hmem] at ha
  exact (h.disjoint hfree).1 hcell (List.mem_append_right _ ha)

/-- A cell that is returned is a chunk of its own. -/
theorem returnCell_spec (h : region.Layout free s chunks) (hfree : FreeCells region free)
    {cell : ℕ} (hcell : cell ∈ s.handedOut) :
    region.Layout free ⟨s.pool.returnCell region cell, s.handedOut.erase cell⟩
      (⟨cell, region.cellSize⟩ :: chunks) := by
  obtain ⟨hwhole, hone, hapart⟩ := h.cell_apart hfree hcell
  obtain ⟨hhead, hlinked, hchunks⟩ := h.chunks_linked
  refine ⟨⟨rfl, ?_, fun e he => ?_⟩, h.current_whole, ?_⟩
  · change Linked (s.pool.headers.writeHeader cell ⟨s.pool.freeListHead, region.cellSize⟩) none _
    rw [hhead]
    exact linked_writeHeader hlinked hchunks region.header_le hapart
  · rcases List.mem_cons.1 he with rfl | he
    · exact hwhole
    · exact hchunks e he
  · refine List.Perm.trans ?_ h.cells
    change (s.handedOut.erase cell ++ (region.cellsIn s.pool.current ++
      (region.cellsIn ⟨cell, region.cellSize⟩ ++ chunks.flatMap region.cellsIn))).Perm _
    rw [hone, List.singleton_append]
    have hmiddle : (region.cellsIn s.pool.current ++ cell :: chunks.flatMap region.cellsIn).Perm
        (cell :: region.poolCells s.pool chunks) := List.perm_middle
    have hfront : (s.handedOut.erase cell ++ cell :: region.poolCells s.pool chunks).Perm
        (cell :: s.handedOut.erase cell ++ region.poolCells s.pool chunks) := List.perm_middle
    exact ((hmiddle.append_left _).trans hfront).trans
      ((List.perm_cons_erase hcell).symm.append_right _)

theorem write_spec (h : region.Layout free s chunks) (hfree : FreeCells region free)
    {base size cell : ℕ} (hcell : cell ∈ s.handedOut)
    (hwithin : (⟨base, size⟩ : Extent).Within ⟨cell, region.cellSize⟩) :
    region.Layout free ⟨{ s.pool with headers := s.pool.headers.clobber base size }, s.handedOut⟩
      chunks := by
  obtain ⟨-, -, hapart⟩ := h.cell_apart hfree hcell
  obtain ⟨hhead, hlinked, hchunks⟩ := h.chunks_linked
  refine ⟨⟨hhead, ?_, hchunks⟩, h.current_whole, h.cells⟩
  exact linked_clobber hlinked hchunks fun e he => (hapart e he).mono e.within_refl hwithin

/-- The chunks after the current one has been put back. -/
def flushedChunks (pool : CellPool) (chunks : List Extent) : List Extent :=
  if address pool.heapCurrent < address pool.heapTop then pool.current :: chunks else chunks

theorem CurrentChunk.not_lt {pool : CellPool} (h : region.CurrentChunk pool) :
    ¬ address pool.heapCurrent < address pool.heapTop ↔ pool.heapCurrent = pool.heapTop := by
  constructor
  · intro hnot
    rcases h with heq | ⟨c, n, hn, -, hcurrent, htop⟩
    · exact heq
    · rw [hcurrent, htop] at hnot
      exact absurd (region.cell_lt_cell (show c < c + n by omega)) hnot
  · intro heq
    rw [heq]
    exact lt_irrefl _

/-- The current chunk is put in front of the others, and is empty then. -/
theorem flushCurrent_spec (h : region.Layout free s chunks) (hfree : FreeCells region free) :
    region.Layout free ⟨s.pool.flushCurrent, s.handedOut⟩ (flushedChunks s.pool chunks) ∧
      s.pool.flushCurrent.heapCurrent = s.pool.flushCurrent.heapTop := by
  have hdisjoint := (h.disjoint hfree).2
  obtain ⟨hchunks, hchunk, hcells⟩ := h
  unfold CellPool.flushCurrent flushedChunks
  by_cases hlt : address s.pool.heapCurrent < address s.pool.heapTop
  · rw [if_pos hlt, if_pos hlt]
    obtain ⟨c, n, hn, hle, hcurrent, htop⟩ :=
      hchunk.resolve_left fun heq => hchunk.not_lt.2 heq hlt
    have hrun := current_of_run hcurrent htop
    have hwhole : region.WholeCells s.pool.current := ⟨c, n, hn, hle, hrun⟩
    refine ⟨⟨⟨rfl, ?_, fun e he => ?_⟩, Or.inl rfl, ?_⟩, rfl⟩
    · change Linked (s.pool.headers.writeHeader s.pool.current.base
        ⟨s.pool.freeListHead, s.pool.current.size⟩) none _
      rw [hchunks.head]
      exact linked_writeHeader hchunks.linked hchunks.whole hwhole.header_le
        (hchunks.apart hwhole hdisjoint)
    · rcases List.mem_cons.1 he with rfl | he
      · exact hwhole
      · exact hchunks.whole e he
    · have hempty : region.poolCells (s.pool.linkInAsHead (address s.pool.heapCurrent)
          (address s.pool.heapTop - address s.pool.heapCurrent)).resetCurrentEntry
          (s.pool.current :: chunks) = region.poolCells s.pool chunks := by
        unfold poolCells
        rw [current_of_eq rfl, cellsIn_empty, List.nil_append]
        rfl
      rw [hempty]
      exact hcells
  · rw [if_neg hlt, if_neg hlt]
    exact ⟨⟨hchunks, hchunk, hcells⟩, hchunk.not_lt.1 hlt⟩

end Operations

end OMR.GC.SmallRegion
