import OMR.GC.PoolAccounting
import OMR.GC.PoolFirstFit

/-!
# The largest free entry that a failed allocation records

An allocation that fails records the largest entry of its walk. The walk passes the whole list
unless it begins at a hint; then it misses the entries before the hinted one.
-/

namespace OMR.GC.Pool

open OMR.Lib

variable {p p' : Pool} {size : ℕ}

/-- The largest size of a walk is that of the entries it passes. -/
theorem largestSize_eq (start : ℕ) (entries : List Extent) :
    largestSize start entries = max start (OMR.Lib.largestSize entries) := by
  induction entries generalizing start with
  | nil => exact (Nat.max_zero start).symm
  | cons e entries ih =>
    have hfold : largestSize start (e :: entries) = largestSize (max start e.size) entries := rfl
    rw [hfold, ih, OMR.Lib.largestSize_cons, max_assoc]

/-- An allocation, if it fails, records the largest size on the free list. -/
def Op.RecordsLargest (p : Pool) : Op → Prop
  | .allocate size => ∀ p', p.internalAllocate size = some (p', none) →
      p'.largestFreeEntry = OMR.Lib.largestSize p.heapFreeList
  | _ => True

/-- From where its walk begins, an allocation meets an entry that is large enough, or one that is
as large as any before. -/
def Op.MeetsLargest (p : Pool) : Op → Prop
  | .allocate size => ∀ before rest,
      startOfWalk p.heapFreeList (p.findHint size).2 = some (before, rest) →
      (∃ e ∈ rest, size ≤ e.size) ∨ ∀ e ∈ before, ∃ e' ∈ rest, e.size ≤ e'.size
  | _ => True

/-- Where the entries from the hint on are all too small, the allocation fails. -/
theorem internalAllocate_fails {before rest : List Extent}
    (hstart : startOfWalk p.heapFreeList (p.findHint size).2 = some (before, rest))
    (hsmall : ∀ e ∈ rest, e.size < size) :
    p.internalAllocate size = some ({ p with
      hints := (p.findHint size).1
      largestFreeEntry := largestSize 0 rest }, none) := by
  have htake : rest.takeWhile (fun e => decide (e.size < size)) = rest :=
    List.takeWhile_eq_self_iff.2 fun e he => by simpa using hsmall e he
  have hdrop : rest.dropWhile (fun e => decide (e.size < size)) = [] :=
    List.dropWhile_eq_nil_iff.2 fun e he => by simpa using hsmall e he
  rw [internalAllocate]
  dsimp only
  rw [hstart]
  dsimp only
  rw [hdrop, htake]

/-- The step: what a failed allocation records is the largest size iff its walk meets it. -/
theorem Op.recordsLargest_iff (p : Pool) (op : Op) : op.RecordsLargest p ↔ op.MeetsLargest p := by
  cases op with
  | allocate size =>
    constructor
    · intro h before rest hstart
      by_cases hfits : ∃ e ∈ rest, size ≤ e.size
      · exact Or.inl hfits
      refine Or.inr fun e he => ?_
      have hsmall : ∀ e ∈ rest, e.size < size := fun e he =>
        Nat.lt_of_not_le fun hle => hfits ⟨e, he, hle⟩
      have hrecorded := h _ (internalAllocate_fails hstart hsmall)
      rw [startOfWalk_eq_append hstart, OMR.Lib.largestSize_append] at hrecorded
      have hlargest : largestSize 0 rest = OMR.Lib.largestSize rest := by
        rw [largestSize_eq, Nat.zero_max]
      have hle : e.size ≤ OMR.Lib.largestSize rest := by
        rw [← hlargest]
        exact (OMR.Lib.le_largestSize he).trans ((le_max_left _ _).trans hrecorded.ge)
      obtain ⟨a, ha⟩ : ∃ a, a ∈ rest := by
        cases hused : (p.findHint size).2 with
        | none =>
          rw [hused] at hstart
          obtain ⟨rfl, -⟩ := Prod.mk.inj (Option.some.inj hstart)
          cases he
        | some hint =>
          rw [hused] at hstart
          obtain ⟨-, -, a, rest', rfl, -⟩ := startOfWalk_some hstart
          exact ⟨a, List.mem_cons_self⟩
      obtain ⟨e', he', hsize⟩ := OMR.Lib.exists_largestSize (List.ne_nil_of_mem ha)
      exact ⟨e', he', hle.trans hsize.ge⟩
    · intro h p' hrun
      rcases internalAllocate_cases hrun with ⟨-, before, rest, hstart, hsmall, rfl⟩ |
        ⟨_, _, _, _, hr, -⟩
      · have hmeets : ∀ e ∈ before, ∃ e' ∈ rest, e.size ≤ e'.size := by
          rcases h before rest hstart with ⟨e, he, hle⟩ | hmeets
          · exact absurd (hsmall e he) (Nat.not_lt.2 hle)
          · exact hmeets
        have hbefore : OMR.Lib.largestSize before ≤ OMR.Lib.largestSize rest := by
          refine OMR.Lib.largestSize_le fun e he => ?_
          obtain ⟨e', he', hle⟩ := hmeets e he
          exact hle.trans (OMR.Lib.le_largestSize he')
        change largestSize 0 rest = OMR.Lib.largestSize p.heapFreeList
        rw [largestSize_eq, Nat.zero_max, startOfWalk_eq_append hstart, OMR.Lib.largestSize_append,
          max_eq_right hbefore]
      · cases hr
  | _ => exact Iff.rfl

/-- In a run, all failed allocations record the largest size on the free list iff all their walks
meet it. -/
theorem admits_recordsLargest_iff (p : Pool) (ops : List Op) :
    p.Admits (fun p op => op.RecordsLargest p) ops ↔ p.Admits (fun p op => op.MeetsLargest p) ops := by
  induction ops generalizing p with
  | nil => exact Iff.rfl
  | cons op ops ih =>
    refine and_congr_right fun _ => and_congr (Op.recordsLargest_iff p op) ?_
    split
    · exact Iff.rfl
    · exact ih _

/-- Twenty-one entries, the first of which is the largest, and one behind them. -/
def largestFirst : List Extent :=
  ⟨1000, 24⟩ :: (List.range 20).map (fun i => ⟨1100 + 100 * i, 16⟩) ++ [⟨3100, 40⟩]

/-- The first allocation uses up the entry at 3100 and records a hint for the one at 3000. The
second one begins there, fails, and records 16, although an entry of 24 bytes is on the list. -/
theorem largestFirst_misrecorded :
    ∃ p p', smallPool.reset.runOps [.addEntries largestFirst, .allocate 32] = some p ∧
      smallPool.reset.Admits (fun _ _ => True) [.addEntries largestFirst, .allocate 32, .allocate 48] ∧
      p.internalAllocate 48 = some (p', none) ∧ p'.largestFreeEntry = 16 ∧
      ⟨1000, 24⟩ ∈ p.heapFreeList := by
  refine ⟨_, _, rfl, by decide, rfl, ?_, ?_⟩
  · decide
  · decide

end OMR.GC.Pool
