import OMR.GC.CompactFreeList

/-!
# The rebuilt free lists are exact

The loop hands over one range for each run of free memory (`runs`), in address order. `Filled`
says what the pools and the state of the current one know after some runs: the pieces of these
runs that lie in the area of a pool and exceed its minimum.
-/

namespace OMR.GC.Compact

open OMR.Lib

section Runs

/-- The ranges that the loop gives to `addFreeEntry`, with the run that is open at the beginning. -/
def runs : Option ℕ → List SubAreaEntry → List Extent
  | _, [] => []
  | base, subArea :: rest =>
    if subArea.IsFree then runs (some (base.getD subArea.firstObject)) rest
    else
      (base.map fun b => ⟨b, subArea.firstObject - b⟩).toList ++ runs subArea.freeChunk rest

variable {subArea next : SubAreaEntry} {rest : List SubAreaEntry} {base : Option ℕ} {x : Extent}

theorem runs_of_isFree (h : subArea.IsFree) : runs base (subArea :: rest) =
    runs (some (base.getD subArea.firstObject)) rest := by
  rw [runs, if_pos h]

theorem runs_of_not_isFree (h : ¬ subArea.IsFree) : runs base (subArea :: rest) =
    (base.map fun b => (⟨b, subArea.firstObject - b⟩ : Extent)).toList ++
      runs subArea.freeChunk rest := by
  rw [runs, if_neg h]

/-- The open run ends at the first sub area that is not wholly free. -/
def EndsRun (base : ℕ) (subAreaTable : List SubAreaEntry) (run : Extent) : Prop :=
  ∃ free stop after, subAreaTable = free ++ stop :: after ∧ (∀ e ∈ free, e.IsFree) ∧
    ¬ stop.IsFree ∧ run = ⟨base, stop.firstObject - base⟩

theorem endsRun_of_isFree {b : ℕ} (h : subArea.IsFree) :
    EndsRun b (subArea :: rest) x ↔ EndsRun b rest x := by
  constructor
  · rintro ⟨free, stop, after, heq, hfree, hstop, rfl⟩
    cases free with
    | nil => exact absurd ((List.cons.inj heq).1 ▸ h) hstop
    | cons e free =>
      obtain ⟨rfl, hrest⟩ := List.cons.inj heq
      exact ⟨free, stop, after, hrest, fun e he => hfree e (List.mem_cons_of_mem _ he), hstop, rfl⟩
  · rintro ⟨free, stop, after, rfl, hfree, hstop, rfl⟩
    exact ⟨subArea :: free, stop, after, rfl, List.forall_mem_cons.2 ⟨h, hfree⟩, hstop, rfl⟩

theorem endsRun_of_not_isFree {b : ℕ} (h : ¬ subArea.IsFree) :
    EndsRun b (subArea :: rest) x ↔ x = ⟨b, subArea.firstObject - b⟩ := by
  constructor
  · rintro ⟨free, stop, after, heq, hfree, -, rfl⟩
    cases free with
    | nil =>
      obtain ⟨rfl, -⟩ := List.cons.inj heq
      rfl
    | cons e free =>
      obtain ⟨rfl, -⟩ := List.cons.inj heq
      exact absurd (hfree _ List.mem_cons_self) h
  · rintro rfl
    exact ⟨[], subArea, rest, rfl, fun e he => absurd he List.not_mem_nil, h, rfl⟩

/-- A run that begins in the table; a wholly free sub area at its head begins one if no run is
open there. -/
def BeginsRun (base : Option ℕ) (subAreaTable : List SubAreaEntry) (run : Extent) : Prop :=
  ∃ before subArea after, subAreaTable = before ++ subArea :: after ∧
    subArea.freeChunk = some run.base ∧
    (¬ subArea.IsFree ∨ (before = [] ∧ base = none) ∨
      ∃ previous ∈ before.getLast?, previous.freeChunk = none) ∧ EndsRun run.base after run

theorem beginsRun_cons : BeginsRun base (subArea :: rest) x ↔
    (subArea.freeChunk = some x.base ∧ (¬ subArea.IsFree ∨ base = none) ∧ EndsRun x.base rest x) ∨
      BeginsRun subArea.freeChunk rest x := by
  constructor
  · rintro ⟨before, e, after, heq, hchunk, hstart, hends⟩
    cases before with
    | nil =>
      obtain ⟨rfl, rfl⟩ := List.cons.inj heq
      refine .inl ⟨hchunk, hstart.imp_right fun h => ?_, hends⟩
      rcases h with ⟨-, hbase⟩ | ⟨previous, hprevious, -⟩
      · exact hbase
      · cases hprevious
    | cons a before =>
      obtain ⟨rfl, rfl⟩ := List.cons.inj heq
      refine .inr ⟨before, e, after, rfl, hchunk, hstart.imp_right fun h => ?_, hends⟩
      rcases h with ⟨hnil, -⟩ | ⟨previous, hprevious, hnone⟩
      · cases hnil
      · cases before with
        | nil =>
          obtain rfl : subArea = previous := by simpa using hprevious
          exact .inl ⟨rfl, hnone⟩
        | cons a before => exact .inr ⟨previous, by simpa using hprevious, hnone⟩
  · rintro (⟨hchunk, hstart, hends⟩ | ⟨before, e, after, rfl, hchunk, hstart, hends⟩)
    · exact ⟨[], subArea, rest, rfl, hchunk, hstart.imp_right fun h => .inl ⟨rfl, h⟩, hends⟩
    · refine ⟨subArea :: before, e, after, rfl, hchunk, hstart.imp_right fun h => ?_, hends⟩
      rcases h with ⟨rfl, hnone⟩ | ⟨previous, hprevious, hnone⟩
      · exact .inr ⟨subArea, by simp, hnone⟩
      · cases before with
        | nil => cases hprevious
        | cons a before => exact .inr ⟨previous, by simpa using hprevious, hnone⟩

/-- The ranges of the loop are the run that is open and those that begin in the table. -/
theorem mem_runs : x ∈ runs base rest ↔
    (∃ b ∈ base, EndsRun b rest x) ∨ BeginsRun base rest x := by
  induction rest generalizing base with
  | nil =>
    constructor
    · intro hx
      cases hx
    · rintro (⟨b, -, free, stop, after, heq, -⟩ | ⟨before, e, after, heq, -⟩)
      · simp at heq
      · simp at heq
  | cons subArea rest ih =>
    rw [beginsRun_cons]
    by_cases h : subArea.IsFree
    · rw [runs_of_isFree h, ih]
      have hchunk : subArea.freeChunk = some subArea.firstObject := h
      have hbegins : BeginsRun (some (base.getD subArea.firstObject)) rest x ↔
          BeginsRun subArea.freeChunk rest x := by
        unfold BeginsRun
        simp only [hchunk, reduceCtorEq, and_false, false_or]
      rw [hbegins]
      cases base with
      | none =>
        simp only [Option.getD_none, Option.mem_def, Option.some.injEq, exists_eq_left', reduceCtorEq,
          false_and, exists_false, false_or, or_true, true_and, hchunk]
        refine or_congr_left ⟨fun hends => ?_, fun ⟨hbase, hends⟩ => hbase ▸ hends⟩
        have hbase : subArea.firstObject = x.base := by
          obtain ⟨_, _, _, -, -, -, rfl⟩ := hends
          rfl
        exact ⟨hbase, hbase ▸ hends⟩
      | some b =>
        simp only [Option.getD_some, Option.mem_def, Option.some.injEq, exists_eq_left', h,
          not_true_eq_false, reduceCtorEq, or_self, false_and, and_false, false_or,
          endsRun_of_isFree h]
    · rw [runs_of_not_isFree h, List.mem_append, ih]
      have hopen : x ∈ (base.map fun b => (⟨b, subArea.firstObject - b⟩ : Extent)).toList ↔
          ∃ b ∈ base, EndsRun b (subArea :: rest) x := by
        simp only [endsRun_of_not_isFree h]
        cases base <;> simp
      rw [hopen]
      refine or_congr_right (or_congr_left ?_)
      constructor
      · rintro ⟨b, hb, hends⟩
        have hbase : b = x.base := by
          obtain ⟨_, _, _, -, -, -, rfl⟩ := hends
          rfl
        subst hbase
        exact ⟨hb, .inl h, hends⟩
      · rintro ⟨hb, -, hends⟩
        exact ⟨x.base, hb, hends⟩

theorem mem_runs_iff : x ∈ runs none rest ↔ IsRun rest x := by
  rw [mem_runs]
  constructor
  · rintro (⟨b, hb, -⟩ | ⟨before, e, after, rfl, hchunk, hstart, free, stop, after, rfl, hfree,
      hstop, hx⟩)
    · cases hb
    · refine ⟨before, e, free, stop, after, rfl, hchunk, hstart.imp_right fun h => ?_, hfree, hstop,
        congrArg Extent.size hx⟩
      rcases h with ⟨rfl, -⟩ | ⟨previous, hprevious, hnone⟩
      · exact fun previous hprevious => by cases hprevious
      · intro previous' hprevious'
        obtain rfl := Option.mem_unique hprevious hprevious'
        exact hnone
  · rintro ⟨before, e, free, stop, after, rfl, hchunk, hstart, hfree, hstop, hsize⟩
    refine .inr ⟨before, e, free ++ stop :: after, rfl, hchunk, hstart.imp_right fun h => ?_, free,
      stop, after, rfl, hfree, hstop, Extent.ext rfl hsize⟩
    cases hlast : before.getLast? with
    | none => exact .inl ⟨List.getLast?_eq_none_iff.1 hlast, rfl⟩
    | some previous => exact .inr ⟨previous, rfl, h previous hlast⟩

end Runs

section Order

variable {subArea : SubAreaEntry} {table : List SubAreaEntry} {base : Option ℕ}

/-- The top of the region, which the last entry of the table holds. -/
def regionTop (table : List SubAreaEntry) : ℕ :=
  (table.getLast?.map SubAreaEntry.firstObject).getD 0

theorem regionTop_cons {next : SubAreaEntry} {rest : List SubAreaEntry} :
    regionTop (subArea :: next :: rest) = regionTop (next :: rest) := by
  rw [regionTop, regionTop, List.getLast?_cons_cons]

theorem not_isFree_of_none (h : subArea.freeChunk = none) : ¬ subArea.IsFree := by
  unfold SubAreaEntry.IsFree
  rw [h]
  exact Option.some_ne_none _ ∘ Eq.symm

theorem Evacuated.firstObject_le_regionTop (h : Evacuated (subArea :: table)) :
    subArea.firstObject ≤ regionTop (subArea :: table) := by
  induction table generalizing subArea with
  | nil => exact le_rfl
  | cons next rest ih =>
    rw [regionTop_cons]
    exact h.2.1.le.trans (ih h.2.2.2)

/-- A lower bound of the bases to come: the base of the open run, or the next sub area. -/
def lowBound (base : Option ℕ) : List SubAreaEntry → ℕ
  | [] => 0
  | subArea :: _ => base.getD subArea.firstObject

/-- The runs lie one after the other above the lower bound and inside the region. -/
theorem Evacuated.runs_ordered : ∀ {table : List SubAreaEntry} {base : Option ℕ},
    Evacuated table → (∀ b ∈ base, ∀ e ∈ table.head?, b ≤ e.firstObject) →
    (runs base table).Pairwise (fun a b => a.top ≤ b.base) ∧
      ∀ x ∈ runs base table, lowBound base table ≤ x.base ∧ x.top ≤ regionTop table
  | [], _, h, _ => h.elim
  | [last], base, h, hbase => by
    rw [runs_of_not_isFree (not_isFree_of_none h.2), h.2]
    cases base with
    | none => exact ⟨List.Pairwise.nil, fun x hx => by cases hx⟩
    | some b =>
      have hle := hbase b rfl last rfl
      refine ⟨List.pairwise_singleton .., fun x hx => ?_⟩
      obtain rfl : x = ⟨b, last.firstObject - b⟩ := by simpa [runs] using hx
      refine ⟨le_rfl, ?_⟩
      simp only [Extent.top, regionTop, List.getLast?_singleton, Option.map_some, Option.getD_some]
      omega
  | subArea :: next :: rest, base, h, hbase => by
    obtain ⟨-, hlt, hchunk, hrest⟩ := h
    rw [regionTop_cons]
    by_cases hfree : subArea.IsFree
    · rw [runs_of_isFree hfree]
      have hle : base.getD subArea.firstObject ≤ next.firstObject := by
        cases base with
        | none => exact hlt.le
        | some b => exact (hbase b rfl subArea rfl).trans hlt.le
      have hbelow : ∀ b ∈ some (base.getD subArea.firstObject),
          ∀ e ∈ (next :: rest).head?, b ≤ e.firstObject := fun b hb e he => by
        obtain rfl := Option.some.inj hb
        obtain rfl := Option.some.inj he
        exact hle
      exact runs_ordered hrest hbelow
    · rw [runs_of_not_isFree hfree]
      have hbelow : ∀ b ∈ subArea.freeChunk, ∀ e ∈ (next :: rest).head?, b ≤ e.firstObject :=
        fun b hb e he => by
          obtain rfl := Option.some.inj he
          exact (hchunk b hb).2
      obtain ⟨hpair, hin⟩ := runs_ordered hrest hbelow
      have hlow : subArea.firstObject ≤ lowBound subArea.freeChunk (next :: rest) := by
        unfold lowBound
        cases hc : subArea.freeChunk with
        | none => exact hlt.le
        | some f => exact (hchunk f hc).1
      have htop : subArea.firstObject ≤ regionTop (next :: rest) :=
        hlt.le.trans hrest.firstObject_le_regionTop
      cases base with
      | none =>
        refine ⟨by simpa using hpair, fun x hx => ?_⟩
        obtain ⟨hlo, hhi⟩ := hin x (by simpa using hx)
        exact ⟨hlow.trans hlo, hhi⟩
      | some b =>
        have hle := hbase b rfl subArea rfl
        have hb : b + (subArea.firstObject - b) = subArea.firstObject := by omega
        refine ⟨List.pairwise_cons.2 ⟨fun x hx => ?_, hpair⟩, List.forall_mem_cons.2
          ⟨⟨le_rfl, ?_⟩, fun x hx => ?_⟩⟩
        · simp only [Extent.top, hb]
          exact hlow.trans (hin x hx).1
        · simp only [Extent.top, hb]
          exact htop
        · exact ⟨hle.trans (hlow.trans (hin x hx).1), (hin x hx).2⟩

theorem liveAreas_base (h : Evacuated (subArea :: table)) {y : Extent}
    (hy : y ∈ liveAreas (subArea :: table)) : subArea.firstObject ≤ y.base := by
  induction table generalizing subArea with
  | nil => cases hy
  | cons next rest ih =>
    rcases List.mem_cons.1 hy with rfl | hy
    · exact le_rfl
    · exact h.2.1.le.trans (ih h.2.2.2 hy)

/-- No live object lies in a run. -/
theorem Evacuated.runs_live : ∀ {table : List SubAreaEntry} {base : Option ℕ},
    Evacuated table → (∀ b ∈ base, ∀ e ∈ table.head?, b ≤ e.firstObject) →
    ∀ x ∈ runs base table, ∀ y ∈ liveAreas table, Disjoint x.bytes y.bytes
  | [], _, h, _ => h.elim
  | [last], base, h, hbase => fun x hx y hy => by cases hy
  | subArea :: next :: rest, base, h, hbase => by
    intro x hx y hy
    have hlive := fun y => liveAreas_base (y := y) h
    have hall := h
    obtain ⟨-, hlt, hchunk, hrest⟩ := h
    -- the runs that begin at or behind the free chunk
    have hnext : ∀ base' : Option ℕ, (∀ b ∈ base', b ≤ next.firstObject) →
        x ∈ runs base' (next :: rest) → y ∈ liveAreas (next :: rest) →
        Disjoint x.bytes y.bytes := fun base' hle hx hy =>
      runs_live hrest (fun b hb e he => by
        obtain rfl := Option.some.inj he
        exact hle b hb) x hx y hy
    by_cases hfree : subArea.IsFree
    · rw [runs_of_isFree hfree] at hx
      have hle : base.getD subArea.firstObject ≤ next.firstObject := by
        cases base with
        | none => exact hlt.le
        | some b => exact (hbase b rfl subArea rfl).trans hlt.le
      rcases List.mem_cons.1 hy with rfl | hy
      · have hempty : subArea.freeChunk = some subArea.firstObject := hfree
        refine Set.disjoint_right.2 fun a ha => ?_
        rw [Extent.mem_bytes] at ha
        simp only [Extent.top, hempty, Option.getD_some] at ha
        omega
      · refine hnext _ (fun b hb => ?_) hx hy
        obtain rfl := Option.some.inj hb
        exact hle
    · rw [runs_of_not_isFree hfree] at hx
      rcases List.mem_append.1 hx with hx | hx
      · -- the open run ends at the first object of the sub area
        obtain ⟨b, hb, rfl⟩ : ∃ b ∈ base, x = ⟨b, subArea.firstObject - b⟩ := by
          cases base <;> simp at hx ⊢
          exact hx
        have hle := hbase b hb subArea rfl
        refine Extent.Apart.disjoint (.inl ?_)
        have := hlive y hy
        simp only [Extent.top]
        omega
      · have hle : ∀ f ∈ subArea.freeChunk, f ≤ next.firstObject := fun f hf => (hchunk f hf).2
        rcases List.mem_cons.1 hy with rfl | hy
        · have hbelow : ∀ b ∈ subArea.freeChunk, ∀ e ∈ (next :: rest).head?, b ≤ e.firstObject :=
            fun b hb e he => by
              obtain rfl := Option.some.inj he
              exact hle b hb
          obtain ⟨-, hin⟩ := hrest.runs_ordered hbelow
          have hlo := (hin x hx).1
          refine Extent.Apart.disjoint (.inr ?_)
          simp only [lowBound] at hlo
          simp only [Extent.top]
          cases hc : subArea.freeChunk with
          | none =>
            rw [hc, Option.getD_none] at hlo
            rw [Option.getD_none]
            omega
          | some f =>
            have := hchunk f hc
            rw [hc, Option.getD_some] at hlo
            rw [Option.getD_some]
            omega
        · exact hnext _ hle hx hy

end Order

section Pools

/-- A pool with a free list and counts that agree with it. -/
structure Accounts (pool : Pool) (l : List Extent) : Prop where
  heapFreeList : pool.heapFreeList = l
  freeMemorySize : pool.freeMemorySize = totalSize l
  freeEntryCount : pool.freeEntryCount = l.length
  largestFreeEntry : pool.largestFreeEntry = largestSize l

theorem IsReset.accounts {pool : Pool} (h : IsReset pool) : Accounts pool [] :=
  ⟨h.heapFreeList, h.freeMemorySize, h.freeEntryCount, h.largestFreeEntry⟩

/-- The state of the current pool after some entries. -/
structure Holds (s : CompactMemoryPoolState) (pool : PoolId) (l : List Extent) : Prop where
  memoryPool : s.memoryPool = pool
  freeList : s.freeList = l
  freeBytes : s.freeBytes = totalSize l
  freeHoles : s.freeHoles = l.length
  largestFreeEntry : s.largestFreeEntry = largestSize l

theorem holds_clear (pool : PoolId) : Holds (CompactMemoryPoolState.clear pool) pool [] :=
  ⟨rfl, rfl, rfl, rfl, rfl⟩

variable {s : CompactMemoryPoolState} {pools : PoolId → Pool} {q : PoolId} {l : List Extent}

theorem addFreeEntries_of_empty {pool : Pool} (h : pool.heapFreeList = []) (hl : l ≠ [])
    (freeMemoryCount freeMemorySize : ℕ) :
    ∃ pool', pool.addFreeEntries l freeMemoryCount freeMemorySize = some pool' ∧
      pool'.heapFreeList = l ∧ pool'.minimumFreeEntrySize = pool.minimumFreeEntrySize := by
  obtain ⟨a, l, rfl⟩ := List.exists_cons_of_ne_nil hl
  obtain ⟨z, hz⟩ := Option.ne_none_iff_exists'.1 (List.getLast?_eq_none_iff.not.2 hl)
  unfold Pool.addFreeEntries
  rw [hz, h]
  exact ⟨_, rfl, rfl, rfl⟩

/-- A flushed pool has the entries of the state, and the other pools stay as they are. -/
theorem flushPool_spec (hs : Holds s q l) (hempty : Accounts (pools q) []) :
    Accounts (flushPool s pools q) l ∧ (∀ q', q' ≠ q → flushPool s pools q' = pools q') ∧
      ∀ q', (flushPool s pools q').minimumFreeEntrySize = (pools q').minimumFreeEntrySize := by
  obtain ⟨hpool, hlist, hbytes, hholes, hlargest⟩ := hs
  subst hpool
  unfold flushPool
  simp only [Function.update_self]
  have hother : ∀ q', q' ≠ s.memoryPool → ∀ p : Pool,
      Function.update pools s.memoryPool p q' = pools q' := fun q' hq p =>
    Function.update_of_ne hq ..
  by_cases hl : s.freeList = []
  · rw [if_pos hl]
    obtain rfl : l = [] := hlist.symm.trans hl
    refine ⟨⟨hempty.heapFreeList, ?_, ?_, hlargest⟩, fun q' hq => hother q' hq _, fun q' => ?_⟩
    · simp [hbytes]
    · simp [hholes]
    · by_cases hq : q' = s.memoryPool
      · rw [hq, Function.update_self]
      · rw [hother q' hq]
  · rw [if_neg hl]
    obtain ⟨pool', hadd, hfree, hmin⟩ := addFreeEntries_of_empty hempty.heapFreeList hl s.freeHoles
      s.freeBytes
    rw [hadd, Option.getD_some]
    refine ⟨⟨hfree.trans hlist, ?_, ?_, hlargest⟩, fun q' hq => hother q' hq _, fun q' => ?_⟩
    · simp [hbytes]
    · simp [hholes]
    · by_cases hq : q' = s.memoryPool
      · rw [hq, Function.update_self]
        exact hmin
      · rw [hother q' hq]

/-- The entries that a range gives to a pool: its piece, if that exceeds the minimum. -/
def entriesOf (currentLOABase : Option ℕ) (minimum : PoolId → ℕ) (q : PoolId) (l : List Extent) :
    List Extent :=
  (l.map (piece currentLOABase q)).filter fun e => minimum q < e.size

variable {border : Option ℕ} {minimum : PoolId → ℕ}

theorem entriesOf_append (q : PoolId) (l l' : List Extent) :
    entriesOf border minimum q (l ++ l') =
      entriesOf border minimum q l ++ entriesOf border minimum q l' := by
  rw [entriesOf, List.map_append, List.filter_append]
  rfl

theorem Holds.current (h : Holds s q (entriesOf border minimum q l)) :
    Holds s s.memoryPool (entriesOf border minimum s.memoryPool l) := by
  rw [h.memoryPool]
  exact h

theorem addChunk_holds (hs : Holds s q l) {n : ℕ} (hn : sizeofFreeHeader ≤ n + 1)
    (chunk : Extent) :
    Holds (addChunk n s chunk.base chunk.size) q
      (l ++ [chunk].filter fun e => n < e.size) := by
  obtain ⟨hpool, hlist, hbytes, hholes, hlargest⟩ := hs
  unfold addChunk
  by_cases hsize : chunk.size > n
  · have hentry : freeEntryIn n chunk.base (chunk.base + chunk.size) = some chunk := by
      unfold freeEntryIn
      rw [if_pos (by omega), Nat.add_sub_cancel_left]
    rw [if_pos hsize, List.filter_cons_of_pos (by simpa using hsize), List.filter_nil]
    refine ⟨hpool, ?_, ?_, ?_, ?_⟩
    · simp only [hentry, hlist, Option.toList_some]
    · simp [hbytes]
    · simp [hholes]
    · simp [hlargest, largestSize_append]
  · rw [if_neg hsize, List.filter_cons_of_neg (by simpa using hsize), List.filter_nil,
      List.append_nil]
    exact ⟨hpool, hlist, hbytes, hholes, hlargest⟩

/-- How a range falls on the pools. -/
theorem getMemoryPool_cases (border : Option ℕ) (x : Extent) :
    (getMemoryPool border x.base x.top = (.smallObjects, none) ∧
      piece border .smallObjects x = x ∧ (piece border .largeObjects x).size = 0 ∧
      ∀ b ∈ border, x.base < b) ∨
    (∃ b ∈ border, getMemoryPool border x.base x.top = (.smallObjects, some b) ∧
      piece border .smallObjects x = ⟨x.base, b - x.base⟩ ∧
      piece border .largeObjects x = ⟨b, x.top - b⟩ ∧ x.base < b ∧ b ≤ x.top) ∨
    ∃ b ∈ border, getMemoryPool border x.base x.top = (.largeObjects, none) ∧
      (piece border .smallObjects x).size = 0 ∧ piece border .largeObjects x = x ∧ b ≤ x.base := by
  cases border with
  | none => exact .inl ⟨rfl, rfl, rfl, fun b hb => by cases hb⟩
  | some b =>
    unfold getMemoryPool piece
    by_cases hbase : x.base < b
    · by_cases htop : x.top ≤ b
      · refine .inl ⟨if_pos ⟨hbase, htop⟩, Extent.ext rfl ?_, ?_, fun b' hb' => ?_⟩
        · simp only [Extent.top] at htop ⊢
          omega
        · simp only [Extent.top] at htop ⊢
          omega
        · obtain rfl := Option.some.inj hb'
          exact hbase
      · refine .inr (.inl ⟨b, rfl, ?_, Extent.ext rfl ?_, Extent.ext ?_ ?_, hbase, by omega⟩)
        · simp only [hbase, htop, true_and, if_false, if_true, show x.top > b by omega]
        · simp only
          omega
        · simp only
          omega
        · simp only
          omega
    · refine .inr (.inr ⟨b, rfl, ?_, ?_, Extent.ext ?_ ?_, by omega⟩)
      · simp only [hbase, false_and, if_false]
      · simp only [Extent.top]
        omega
      · simp only
        omega
      · simp only [Extent.top]
        omega

/-- The state after some runs, the next of which does not begin below `low`. -/
structure Filled (border : Option ℕ) (minimum : PoolId → ℕ) (l : List Extent) (low : ℕ)
    (s : CompactMemoryPoolState × (PoolId → Pool)) : Prop where
  header_le : ∀ q, sizeofFreeHeader ≤ minimum q + 1
  minimum_eq : ∀ q, (s.2 q).minimumFreeEntrySize = minimum q
  current : Holds s.1 s.1.memoryPool (entriesOf border minimum s.1.memoryPool l)
  large : Accounts (s.2 .largeObjects) []
  inSmall : s.1.memoryPool = .smallObjects →
    Accounts (s.2 .smallObjects) [] ∧ entriesOf border minimum .largeObjects l = []
  inLarge : s.1.memoryPool = .largeObjects → (∃ b ∈ border, b ≤ low) ∧
    Accounts (s.2 .smallObjects) (entriesOf border minimum .smallObjects l)

theorem entriesOf_eq_nil {x : Extent} (h : (piece border q x).size = 0) :
    entriesOf border minimum q [x] = [] := by
  rw [entriesOf, List.map_singleton, List.filter_cons_of_neg (by simp [h]), List.filter_nil]

/-- A state in the small object pool, flushed. -/
theorem Filled.flush {low : ℕ} {s : CompactMemoryPoolState × (PoolId → Pool)}
    (h : Filled border minimum l low s) (hsmall : s.1.memoryPool = .smallObjects) :
    Accounts (flushPool s.1 s.2 .smallObjects) (entriesOf border minimum .smallObjects l) ∧
      flushPool s.1 s.2 .largeObjects = s.2 .largeObjects ∧
      ∀ q, (flushPool s.1 s.2 q).minimumFreeEntrySize = minimum q := by
  have hcurrent := h.current
  rw [hsmall] at hcurrent
  obtain ⟨haccounts, hother, hmin⟩ := flushPool_spec hcurrent (h.inSmall hsmall).1
  exact ⟨haccounts, hother _ (by decide), fun q => (hmin q).trans (h.minimum_eq q)⟩

/-- One more run: it falls on the current pool, spans the border, or begins behind it. -/
theorem Filled.addFreeEntry {low : ℕ} {s : CompactMemoryPoolState × (PoolId → Pool)}
    (h : Filled border minimum l low s) (x : Extent) (hlow : low ≤ x.base) :
    Filled border minimum (l ++ [x]) x.top (addFreeEntry border s.1 s.2 x.base x.size) := by
  have htop : x.base + x.size = x.top := rfl
  have hle : x.base ≤ x.top := Nat.le_add_right ..
  have hsmallOf : ∀ b ∈ border, x.base < b → s.1.memoryPool = .smallObjects := by
    intro b hb hlt
    cases hp : s.1.memoryPool with
    | smallObjects => rfl
    | largeObjects =>
      obtain ⟨⟨b', hb', hle'⟩, -⟩ := h.inLarge hp
      obtain rfl := Option.mem_unique hb hb'
      omega
  unfold Compact.addFreeEntry
  rw [htop]
  rcases getMemoryPool_cases border x with ⟨hpool, hpiece, hother, hbefore⟩ |
    ⟨b, hb, hpool, hpiece, hpieceLarge, hlt, hbtop⟩ | ⟨b, hb, hpool, hother, hpiece, hble⟩
  · rw [hpool]
    have hsmall : s.1.memoryPool = .smallObjects := by
      cases hp : s.1.memoryPool with
      | smallObjects => rfl
      | largeObjects =>
        obtain ⟨⟨b', hb', hle'⟩, -⟩ := h.inLarge hp
        exact absurd (hbefore b' hb') (by omega)
    have hcurrent := h.current
    rw [hsmall] at hcurrent
    have hnew : Holds (addChunk (s.2 .smallObjects).minimumFreeEntrySize s.1 x.base x.size)
        .smallObjects (entriesOf border minimum .smallObjects (l ++ [x])) := by
      rw [entriesOf_append, h.minimum_eq]
      have := addChunk_holds hcurrent (h.header_le .smallObjects) x
      rwa [show entriesOf border minimum .smallObjects [x] =
        [x].filter fun e => minimum .smallObjects < e.size by
          rw [entriesOf, List.map_singleton, hpiece]]
    simp only [hsmall, ne_eq, not_true_eq_false, if_false, Option.map_none, Option.getD_none]
    refine ⟨h.header_le, h.minimum_eq, hnew.current, h.large, fun _ => ?_, fun hp => ?_⟩
    · refine ⟨(h.inSmall hsmall).1, ?_⟩
      rw [entriesOf_append, (h.inSmall hsmall).2, entriesOf_eq_nil hother, List.append_nil]
    · exact absurd (hnew.memoryPool.symm.trans hp) (by decide)
  · rw [hpool]
    have hsmall := hsmallOf b hb hlt
    have hcurrent := h.current
    rw [hsmall] at hcurrent
    have hnew : Holds (addChunk (s.2 .smallObjects).minimumFreeEntrySize s.1 x.base (b - x.base))
        .smallObjects (entriesOf border minimum .smallObjects (l ++ [x])) := by
      rw [entriesOf_append, h.minimum_eq]
      have := addChunk_holds hcurrent (h.header_le .smallObjects) ⟨x.base, b - x.base⟩
      rwa [show entriesOf border minimum .smallObjects [x] =
        [(⟨x.base, b - x.base⟩ : Extent)].filter fun e => minimum .smallObjects < e.size by
          rw [entriesOf, List.map_singleton, hpiece]]
    simp only [hsmall, ne_eq, not_true_eq_false, if_false, Option.map_some, Option.getD_some]
    obtain ⟨haccounts, hkept, hmin⟩ := flushPool_spec hnew (h.inSmall hsmall).1
    have hlarge : getMemoryPoolOf border b = .largeObjects := by
      rw [Option.mem_def.1 hb]
      exact if_neg (lt_irrefl b)
    have hhigh : Holds (addChunk (flushPool (addChunk (s.2 .smallObjects).minimumFreeEntrySize s.1
        x.base (b - x.base)) s.2 .largeObjects).minimumFreeEntrySize
        (CompactMemoryPoolState.clear .largeObjects) b (x.top - b)) .largeObjects
        (entriesOf border minimum .largeObjects (l ++ [x])) := by
      rw [entriesOf_append, (h.inSmall hsmall).2, hmin, h.minimum_eq]
      have := addChunk_holds (holds_clear .largeObjects) (h.header_le .largeObjects) ⟨b, x.top - b⟩
      rwa [show entriesOf border minimum .largeObjects [x] =
        [(⟨b, x.top - b⟩ : Extent)].filter fun e => minimum .largeObjects < e.size by
          rw [entriesOf, List.map_singleton, hpieceLarge]]
    rw [hlarge]
    refine ⟨h.header_le, fun q => (hmin q).trans (h.minimum_eq q), hhigh.current, ?_,
      fun hp => ?_, fun _ => ⟨⟨b, hb, hbtop⟩, haccounts⟩⟩
    · simp only
      rw [hkept _ (by decide)]
      exact h.large
    · exact absurd (hhigh.memoryPool.symm.trans hp) (by decide)
  · rw [hpool]
    have hpiece' : entriesOf border minimum .largeObjects [x] =
        [x].filter fun e => minimum .largeObjects < e.size := by
      rw [entriesOf, List.map_singleton, hpiece]
    cases hp : s.1.memoryPool with
    | smallObjects =>
      obtain ⟨haccounts, hkept, hmin⟩ := h.flush hp
      have hnew : Holds (addChunk (flushPool s.1 s.2 .largeObjects).minimumFreeEntrySize
          (CompactMemoryPoolState.clear .largeObjects) x.base x.size) .largeObjects
          (entriesOf border minimum .largeObjects (l ++ [x])) := by
        rw [entriesOf_append, (h.inSmall hp).2, hmin, hpiece']
        exact addChunk_holds (holds_clear .largeObjects) (h.header_le .largeObjects) x
      simp only [ne_eq, reduceCtorEq, not_false_eq_true, if_true, Option.map_none, Option.getD_none]
      refine ⟨h.header_le, hmin, hnew.current, ?_, fun hp => ?_,
        fun _ => ⟨⟨b, hb, hble.trans hle⟩, ?_⟩⟩
      · simp only
        rw [hkept]
        exact h.large
      · exact absurd (hnew.memoryPool.symm.trans hp) (by decide)
      · rw [entriesOf_append, entriesOf_eq_nil hother, List.append_nil]
        exact haccounts
    | largeObjects =>
      have hcurrent := h.current
      rw [hp] at hcurrent
      have hnew : Holds (addChunk (s.2 .largeObjects).minimumFreeEntrySize s.1 x.base x.size)
          .largeObjects (entriesOf border minimum .largeObjects (l ++ [x])) := by
        rw [entriesOf_append, h.minimum_eq, hpiece']
        exact addChunk_holds hcurrent (h.header_le .largeObjects) x
      simp only [ne_eq, not_true_eq_false, if_false, Option.map_none, Option.getD_none]
      refine ⟨h.header_le, h.minimum_eq, hnew.current, h.large, fun hp => ?_,
        fun _ => ⟨⟨b, hb, hble.trans hle⟩, ?_⟩⟩
      · exact absurd (hnew.memoryPool.symm.trans hp) (by decide)
      · rw [entriesOf_append, entriesOf_eq_nil hother, List.append_nil]
        exact (h.inLarge hp).2

/-- The loop gives the runs to `addFreeEntry` one by one, and ends with no run open. -/
theorem rebuildLoop_filled : ∀ {table : List SubAreaEntry} {base : Option ℕ} {l : List Extent}
    {low : ℕ} {s : CompactMemoryPoolState × (PoolId → Pool)}, Evacuated table →
    (∀ b ∈ base, ∀ e ∈ table.head?, b ≤ e.firstObject) → Filled border minimum l low s →
    low ≤ lowBound base table →
    ∃ s' low', rebuildLoop border table base s = some (none, s') ∧
      Filled border minimum (l ++ runs base table) low' s'
  | [], _, _, _, _, h, _, _, _ => h.elim
  | subArea :: rest, base, l, low, s, h, hbase, hs, hlow => by
    have hrunsLe : ∀ b ∈ base, b + (subArea.firstObject - b) = subArea.firstObject := by
      intro b hb
      have := hbase b hb subArea rfl
      omega
    -- what the end of the open run gives, if the sub area ends it
    have hend : ∃ low', low' ≤ max low subArea.firstObject ∧ Filled border minimum
        (l ++ (base.map fun b => (⟨b, subArea.firstObject - b⟩ : Extent)).toList) low'
        (endRun border subArea base s) := by
      cases base with
      | none => exact ⟨low, le_max_left .., by simpa [endRun] using hs⟩
      | some b =>
        refine ⟨subArea.firstObject, le_max_right .., ?_⟩
        have hadd := hs.addFreeEntry ⟨b, subArea.firstObject - b⟩ hlow
        rw [show Extent.top ⟨b, subArea.firstObject - b⟩ = subArea.firstObject from
          hrunsLe b rfl] at hadd
        exact hadd
    cases rest with
    | nil =>
      obtain ⟨low', -, hfilled⟩ := hend
      refine ⟨endRun border subArea base s, low', ?_, ?_⟩
      · have hvisit : visitSubArea border subArea base s =
            (none, endRun border subArea base s) := by
          unfold visitSubArea
          rw [h.2]
        rw [rebuildLoop, if_pos h.1, hvisit]
      · rw [runs_of_not_isFree (not_isFree_of_none h.2), runs, List.append_nil]
        exact hfilled
    | cons next rest =>
      obtain ⟨hstate, hlt, hchunk, hrest⟩ := h
      rw [rebuildLoop, if_neg hstate]
      by_cases hfree : subArea.IsFree
      · have hchunkEq : subArea.freeChunk = some subArea.firstObject := hfree
        have hvisit : visitSubArea border subArea base s =
            (some (base.getD subArea.firstObject), s) := by
          unfold visitSubArea
          rw [hchunkEq]
          cases base with
          | none => simp
          | some b => simp
        rw [hvisit, runs_of_isFree hfree]
        refine rebuildLoop_filled hrest (fun b hb e he => ?_) hs hlow
        obtain rfl := Option.some.inj hb
        obtain rfl := Option.some.inj he
        cases base with
        | none => exact hlt.le
        | some b => exact (hbase b rfl subArea rfl).trans hlt.le
      · have hvisit : visitSubArea border subArea base s =
            (subArea.freeChunk, endRun border subArea base s) := by
          unfold visitSubArea
          cases hc : subArea.freeChunk with
          | none => rfl
          | some f =>
            rw [SubAreaEntry.IsFree, hc, Option.some.injEq] at hfree
            simp only [if_neg hfree]
        obtain ⟨low', hle, hfilled⟩ := hend
        rw [hvisit, runs_of_not_isFree hfree, ← List.append_assoc]
        refine rebuildLoop_filled hrest (fun b hb e he => ?_) hfilled ?_
        · obtain rfl := Option.some.inj he
          exact (hchunk b hb).2
        · have hlow' : low ≤ subArea.firstObject := by
            cases base with
            | none => exact hlow
            | some b => exact hlow.trans (hbase b rfl subArea rfl)
          rw [max_eq_right hlow'] at hle
          refine hle.trans ?_
          unfold lowBound
          cases hc : subArea.freeChunk with
          | none => exact hlt.le
          | some f => exact (hchunk f hc).1

/-- The last flush gives every pool its entries. -/
theorem Filled.flushed {low : ℕ} {s : CompactMemoryPoolState × (PoolId → Pool)}
    (h : Filled border minimum l low s) (q : PoolId) :
    Accounts (flushPool s.1 s.2 q) (entriesOf border minimum q l) := by
  cases hp : s.1.memoryPool with
  | smallObjects =>
    obtain ⟨haccounts, hkept, -⟩ := h.flush hp
    cases q with
    | smallObjects => exact haccounts
    | largeObjects =>
      rw [hkept, (h.inSmall hp).2]
      exact h.large
  | largeObjects =>
    have hcurrent := h.current
    rw [hp] at hcurrent
    obtain ⟨haccounts, hkept, -⟩ := flushPool_spec hcurrent h.large
    cases q with
    | smallObjects =>
      rw [hkept _ (by decide)]
      exact (h.inLarge hp).2
    | largeObjects => exact haccounts

/-- A piece lies in its range. -/
theorem piece_within (x : Extent) (h : 0 < (piece border q x).size) :
    (piece border q x).Within x := by
  unfold piece at h ⊢
  cases border <;> cases q <;> simp only [Extent.Within, Extent.top] at h ⊢ <;> omega

/-- The entries of a pool are pieces of the runs, in their order. -/
theorem entriesOf_ordered (hl : l.Pairwise fun a b => a.top ≤ b.base) :
    AddressOrdered (entriesOf border minimum q l) := by
  have hpos : ∀ e ∈ entriesOf border minimum q l, 0 < e.size := fun e he => by
    have := (List.mem_filter.1 he).2
    simp only [decide_eq_true_eq] at this
    omega
  refine ⟨hpos, ?_⟩
  unfold entriesOf at hpos ⊢
  rw [List.filter_map, List.pairwise_map]
  refine (hl.filter _).imp_of_mem fun {a b} ha hb hab => ?_
  have hposOf : ∀ x ∈ l.filter ((fun e => decide (minimum q < e.size)) ∘ piece border q),
      0 < (piece border q x).size := fun x hx => by
    have := (List.mem_filter.1 hx).2
    simp only [Function.comp_apply, decide_eq_true_eq] at this
    omega
  exact ((piece_within a (hposOf a ha)).2.trans hab).trans (piece_within b (hposOf b hb)).1

/-- After the rebuilding, no run is open, and each pool has one entry for each piece of a run in its
area that exceeds its minimum; the entries are in address order, apart from all live objects and
inside the region, and the counts are theirs. -/
theorem rebuildFreelist_exact (currentLOABase : Option ℕ) (subArea : SubAreaEntry)
    (rest : List SubAreaEntry) (pools : PoolId → Pool) (hpools : ∀ q, IsReset (pools q))
    (htable : Evacuated (subArea :: rest))
    (hpool : subArea.memoryPool = getMemoryPoolOf currentLOABase subArea.firstObject) :
    ∃ pools', rebuildFreelist currentLOABase (subArea :: rest) pools = some (none, pools') ∧
      ∀ q, (∀ e, e ∈ (pools' q).heapFreeList ↔ ∃ run, IsRun (subArea :: rest) run ∧
          e = piece currentLOABase q run ∧ (pools q).minimumFreeEntrySize < e.size) ∧
        AddressOrdered (pools' q).heapFreeList ∧
        (∀ e ∈ (pools' q).heapFreeList, subArea.firstObject ≤ e.base ∧
          e.top ≤ regionTop (subArea :: rest) ∧
          ∀ y ∈ liveAreas (subArea :: rest), Disjoint e.bytes y.bytes) ∧
        (pools' q).freeMemorySize = totalSize (pools' q).heapFreeList ∧
        (pools' q).freeEntryCount = (pools' q).heapFreeList.length ∧
        (pools' q).largestFreeEntry = largestSize (pools' q).heapFreeList := by
  have hnone : ∀ b ∈ (none : Option ℕ), ∀ e ∈ (subArea :: rest).head?, b ≤ e.firstObject :=
    fun b hb => by cases hb
  have hstart : Filled currentLOABase (fun q => (pools q).minimumFreeEntrySize) []
      subArea.firstObject (CompactMemoryPoolState.clear subArea.memoryPool, pools) := by
    refine ⟨fun q => (hpools q).header_le, fun q => rfl, holds_clear _, (hpools _).accounts,
      fun _ => ⟨(hpools _).accounts, rfl⟩, fun hlarge => ⟨?_, (hpools _).accounts⟩⟩
    have hmem : getMemoryPoolOf currentLOABase subArea.firstObject = .largeObjects :=
      hpool.symm.trans hlarge
    unfold getMemoryPoolOf at hmem
    cases currentLOABase with
    | none => cases hmem
    | some b =>
      refine ⟨b, rfl, ?_⟩
      by_contra hlt
      simp only [if_pos (not_le.1 hlt)] at hmem
      cases hmem
  obtain ⟨s, low, hrun, hfilled⟩ := rebuildLoop_filled htable hnone hstart le_rfl
  rw [List.nil_append] at hfilled
  obtain ⟨hpair, hin⟩ := htable.runs_ordered hnone
  refine ⟨flushPool s.1 s.2, ?_, fun q => ?_⟩
  · rw [rebuildFreelist, hrun, Option.map_some]
  · have haccounts := hfilled.flushed q
    have hmem : ∀ e, e ∈ (flushPool s.1 s.2 q).heapFreeList ↔ ∃ run, IsRun (subArea :: rest) run ∧
        e = piece currentLOABase q run ∧ (pools q).minimumFreeEntrySize < e.size := by
      intro e
      rw [haccounts.heapFreeList, entriesOf, List.mem_filter, List.mem_map]
      constructor
      · rintro ⟨⟨run, hmem, rfl⟩, hsize⟩
        exact ⟨run, mem_runs_iff.1 hmem, rfl, by simpa using hsize⟩
      · rintro ⟨run, hmem, rfl, hsize⟩
        exact ⟨⟨run, mem_runs_iff.2 hmem, rfl⟩, by simpa using hsize⟩
    refine ⟨hmem, ?_, fun e he => ?_, ?_, ?_, ?_⟩
    · rw [haccounts.heapFreeList]
      exact entriesOf_ordered hpair
    · obtain ⟨run, hisRun, rfl, hsize⟩ := (hmem e).1 he
      have hrunMem := mem_runs_iff.2 hisRun
      have hwithin : (piece currentLOABase q run).Within run := piece_within run (by omega)
      obtain ⟨hlo, hhi⟩ := hin run hrunMem
      refine ⟨hlo.trans hwithin.1, hwithin.2.trans hhi, fun y hy => ?_⟩
      exact (htable.runs_live hnone run hrunMem y hy).mono_left hwithin.bytes_subset
    · rw [haccounts.freeMemorySize, haccounts.heapFreeList]
    · rw [haccounts.freeEntryCount, haccounts.heapFreeList]
    · rw [haccounts.largestFreeEntry, haccounts.heapFreeList]

end Pools

section Example

/-- A full sub area, one with a free tail, a wholly free one, a full one and the end. -/
def fiveSubAreas : List SubAreaEntry :=
  [⟨.smallObjects, 4096, none, .full⟩, ⟨.smallObjects, 8192, some 10240, .full⟩,
    ⟨.smallObjects, 12288, some 12288, .full⟩, ⟨.largeObjects, 16384, none, .full⟩,
    ⟨.largeObjects, 20480, none, .endSegment⟩]

def resetPools (_ : PoolId) : Pool := ⟨512, [], 0, 0, 0, ⟨[], 0, 0⟩, 0, 0, 0, 0⟩

/-- The run from 10240 to 16384 spans the border at 14336. -/
theorem rebuildFreelist_exact_fiveSubAreas : ∃ pools',
    rebuildFreelist (some 14336) fiveSubAreas resetPools = some (none, pools') ∧
    ⟨10240, 4096⟩ ∈ (pools' .smallObjects).heapFreeList ∧
    ⟨14336, 2048⟩ ∈ (pools' .largeObjects).heapFreeList := by
  obtain ⟨pools', hrun, hpools⟩ := rebuildFreelist_exact (some 14336) _ _ resetPools
    (fun q => ⟨rfl, rfl, rfl, rfl, (by decide : sizeofFreeHeader ≤ 512 + 1)⟩)
    (show Evacuated fiveSubAreas by simp [fiveSubAreas, Evacuated]) rfl
  have hisRun : IsRun fiveSubAreas ⟨10240, 6144⟩ :=
    ⟨[⟨.smallObjects, 4096, none, .full⟩], _, [_], _, _, rfl, rfl, .inl (by decide), by decide,
      by decide, rfl⟩
  exact ⟨pools', hrun, ((hpools .smallObjects).1 _).2 ⟨_, hisRun, rfl, by decide⟩,
    ((hpools .largeObjects).1 _).2 ⟨_, hisRun, rfl, by decide⟩⟩

end Example

end OMR.GC.Compact
