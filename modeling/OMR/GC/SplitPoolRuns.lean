import Mathlib.Tactic
import OMR.GC.SplitPoolPostProcess

/-!
# Runs of allocations from the split pool

From the pool that `postProcess` leaves, any calls of the two allocations in any order
and from any environments: the invariant holds in every pool reached, nothing is handed
out twice, and nothing that was not free.
-/

namespace OMR.GC.SplitPool

open OMR.Lib

variable {p p' : SplitPool}

/-- A call of an allocation. -/
inductive Call where
  | internalAllocate (environmentId sizeInBytesRequired : ℕ) (lockingRequired : Bool)
  | internalAllocateTLH (environmentId maximumSizeInBytesRequired : ℕ) (lockingRequired : Bool)
deriving DecidableEq, Repr

/-- The size that is asked for. -/
def Call.size : Call → ℕ
  | .internalAllocate _ size _ => size
  | .internalAllocateTLH _ size _ => size

/-- Make a call. -/
def call (p : SplitPool) : Call → Option (SplitPool × Option Extent)
  | .internalAllocate environmentId size locking => p.internalAllocate environmentId size locking
  | .internalAllocateTLH environmentId size locking =>
    p.internalAllocateTLH environmentId size locking

/-- Calls one after the other: the pool and the ranges that were handed out. -/
def run : List Call → SplitPool → Option (SplitPool × List Extent)
  | [], p => some (p, [])
  | c :: calls, p =>
    (p.call c).bind fun result =>
      (run calls result.1).map fun last => (last.1, result.2.toList ++ last.2)

theorem Searched.subset (h : Searched p p') : p'.freeBytes ⊆ p.freeBytes := h.freeBytes_eq.subset

/-- One call keeps the invariant and hands out what was free. -/
theorem call_spec (h : p.Sound) {c : Call} {r : Option Extent} (hc : p.call c = some (p', r)) :
    p'.Sound ∧ p'.freeBytes ⊆ p.freeBytes ∧
      p'.minimumFreeEntrySize = p.minimumFreeEntrySize ∧ (p.EntriesLarge → p'.EntriesLarge) ∧
      ∀ x ∈ r.toList, x.bytes ⊆ p.freeBytes ∧ Disjoint p'.freeBytes x.bytes := by
  obtain ⟨size, halloc⟩ : ∃ size, Allocated p size (p', r) := by
    cases c with
    | internalAllocate environmentId size locking =>
      exact ⟨size, ((internalAllocate_spec h environmentId size locking).2 _ hc).1⟩
    | internalAllocateTLH environmentId size locking =>
      exact ⟨1, (internalAllocateTLH_spec h environmentId size locking).2 _ hc⟩
  cases r with
  | none =>
    have hs := (halloc.failed rfl).1
    exact ⟨halloc.sound, hs.subset, hs.minimum, hs.entriesLarge_iff.2, by simp⟩
  | some x =>
    have hout := halloc.handsOut x rfl
    refine ⟨halloc.sound, hout.subset, hout.minimum, hout.large, fun y hy => ?_⟩
    obtain rfl : y = x := by simpa using hy
    exact ⟨hout.was_free, hout.not_free⟩

/-- A call returns unless it asks for nothing. -/
theorem call_isSome (h : p.Sound) (hlarge : p.EntriesLarge) {c : Call} (hc : 0 < c.size) :
    ∃ result, p.call c = some result := by
  cases c with
  | internalAllocate environmentId size locking =>
    exact (internalAllocate_spec h environmentId size locking).1 hc
  | internalAllocateTLH environmentId size locking =>
    exact (internalAllocateTLH_spec h environmentId size locking).1 hc hlarge

/-- What a run does: `call_spec`, call after call. -/
theorem run_spec {calls : List Call} : ∀ {p p' : SplitPool} {ranges : List Extent}, p.Sound →
    run calls p = some (p', ranges) →
    p'.Sound ∧ p'.freeBytes ⊆ p.freeBytes ∧
      p'.minimumFreeEntrySize = p.minimumFreeEntrySize ∧ (p.EntriesLarge → p'.EntriesLarge) ∧
      (∀ x ∈ ranges, x.bytes ⊆ p.freeBytes ∧ Disjoint p'.freeBytes x.bytes) ∧
      ranges.Pairwise fun x y => Disjoint x.bytes y.bytes := by
  induction calls with
  | nil =>
    intro p p' ranges h hrun
    cases hrun
    exact ⟨h, subset_rfl, rfl, id, by simp, List.Pairwise.nil⟩
  | cons c calls ih =>
    intro p p' ranges h hrun
    obtain ⟨⟨p₁, r⟩, hc, hrest⟩ := Option.bind_eq_some_iff.1 hrun
    obtain ⟨⟨p₂, ranges₂⟩, hrun₂, heq⟩ := Option.map_eq_some_iff.1 hrest
    obtain ⟨rfl, rfl⟩ := Prod.mk.inj heq
    obtain ⟨h₁, hsub₁, hmin₁, hlarge₁, hout₁⟩ := call_spec h hc
    obtain ⟨h₂, hsub₂, hmin₂, hlarge₂, hout₂, hpair⟩ := ih h₁ hrun₂
    refine ⟨h₂, hsub₂.trans hsub₁, hmin₂.trans hmin₁, hlarge₂ ∘ hlarge₁, fun x hx => ?_, ?_⟩
    · obtain hx | hx := List.mem_append.1 hx
      · exact ⟨(hout₁ x hx).1, (hout₁ x hx).2.mono_left hsub₂⟩
      · exact ⟨(hout₂ x hx).1.trans hsub₁, (hout₂ x hx).2⟩
    · refine List.pairwise_append.2 ⟨?_, hpair, fun x hx y hy => ?_⟩
      · cases r <;> simp
      · exact (hout₁ x hx).2.symm.mono_right (hout₂ y hy).1

/-- What holds of the pool and of the ranges handed out after a run from a pool with the entries
`l`. -/
structure RunSound (l : List Extent) (p : SplitPool) (ranges : List Extent) : Prop where
  counted : ∀ i < p.heapFreeListCount, p.Counted i
  ordered : ∀ i < p.heapFreeListCount, AddressOrdered (p.entries i)
  disjoint : ∀ i < p.heapFreeListCount, ∀ j < p.heapFreeListCount, i ≠ j →
    Disjoint (bytesOf (p.entries i)) (bytesOf (p.entries j))
  reserved : p.IsReset ∨ ∃ i e, p.IsReserved i e
  handed_free : ∀ x ∈ ranges, x.bytes ⊆ bytesOf l ∧ Disjoint p.freeBytes x.bytes
  handed_apart : ranges.Pairwise fun x y => Disjoint x.bytes y.bytes
  failed : ∀ environmentId size locking p', p.internalAllocate environmentId size locking =
    some (p', none) → ∀ i < p.heapFreeListCount, ∀ e ∈ p.entries i, e.size < size
  returns : (∀ e ∈ l, p.minimumFreeEntrySize ≤ e.size) → ∀ c : Call, 0 < c.size →
    ∃ result, p.call c = some result

/-- `postProcess` of any address-ordered list returns, where a sweep has found a byte for every
list, and every run of allocations from there is sound. -/
theorem postProcess_run_sound {cause : Cause} {sweep : SweepPoolState} {l : List Extent}
    (h : Built p (cause.list p.heapFreeListCount) l)
    (hsweep : cause = .forSweep → l ≠ [] → sweep.Of l) :
    ((cause = .forSweep → p.heapFreeListCount ≤ totalSize l) →
        ∃ p₀, p.postProcess cause sweep = some p₀) ∧
      ∀ p₀, p.postProcess cause sweep = some p₀ → ∀ calls p' ranges,
        run calls p₀ = some (p', ranges) → RunSound l p' ranges := by
  obtain ⟨htotal, hspec⟩ := postProcess_spec h hsweep
  refine ⟨htotal, fun p₀ hp₀ calls p' ranges hrun => ?_⟩
  obtain ⟨h₀, hall, -⟩ := hspec p₀ hp₀
  obtain ⟨h', hsub, hmin, hlarge, hout, hpair⟩ := run_spec h₀ hrun
  have hfree : p₀.freeBytes = bytesOf l := by rw [freeBytes_eq_allEntries, hall]
  refine ⟨fun i hi => ⟨h'.freeSize_eq i hi, h'.freeCount_eq i hi⟩, h'.ordered, h'.disjoint,
    h'.reserved, fun x hx => hfree ▸ hout x hx, hpair, ?_, fun hl c hc => ?_⟩
  · intro environmentId size locking p'' hnull
    have halloc := ((internalAllocate_spec h' environmentId size locking).2 _ hnull).1
    exact (halloc.failed rfl).2
  · refine call_isSome h' (hlarge fun i hi e he => ?_) hc
    rw [← hmin]
    refine hl e ?_
    rw [← hall]
    exact List.mem_flatMap.2 ⟨i, List.mem_range.2 hi, he⟩

/-- A pool with two lists, of which the first has three entries. -/
def threeEntryPool : SplitPool where
  minimumFreeEntrySize := 16
  heapFreeListCount := 2
  heapFreeLists := fun i =>
    ⟨if i = 0 then [⟨1000, 64⟩, ⟨2000, 128⟩, ⟨3000, 96⟩] else [],
      if i = 0 then 288 else 0, if i = 0 then 3 else 0, 0, HintCache.initHints⟩
  currentThreadFreeList := fun _ => 0
  reservedFreeEntrySize := 0
  previousReservedFreeEntry := .udataMax
  reservedFreeListIndex := 2
  reservedFreeEntryAvaliable := false
  largestFreeEntry := 0
  allocCount := 0
  allocBytes := 0
  allocSearchCount := 0
  allocDiscardedBytes := 0

theorem threeEntryPool_built :
    Built threeEntryPool 0 [⟨1000, 64⟩, ⟨2000, 128⟩, ⟨3000, 96⟩] := by
  refine ⟨by decide, by decide, by decide, rfl, fun j hj => ?_, fun j hj => ?_,
    ⟨rfl, rfl, rfl, rfl⟩, fun _ => rfl⟩
  · simp [entries, threeEntryPool, hj]
  · have hj' : j ≠ 0 := hj.resolve_right (by simp)
    simp [Counted, entries, threeEntryPool, hj']

/-- What the sweep that built the list would say about it: the largest entry is the second one,
and the list may be cut in front of the third. -/
def threeEntrySweep : SweepPoolState :=
  ⟨288, 3, 128, .entry 1000, [⟨true, some 3000, .entry 2000, 192, 2⟩]⟩

theorem threeEntrySweep_of : threeEntrySweep.Of [⟨1000, 64⟩, ⟨2000, 128⟩, ⟨3000, 96⟩] := by
  refine ⟨rfl, rfl, ⟨[⟨1000, 64⟩], ⟨2000, 128⟩, [⟨3000, 96⟩], rfl, rfl, rfl⟩, fun chunk hc _ => ?_,
    List.pairwise_singleton ..⟩
  obtain rfl := List.mem_singleton.1 hc
  exact ⟨[⟨1000, 64⟩, ⟨2000, 128⟩], ⟨⟨3000, 96⟩, [], rfl, rfl⟩, rfl, rfl, rfl⟩

theorem postProcess_run_sound_threeEntryPool :
    ∃ p₀, threeEntryPool.postProcess .forSweep threeEntrySweep = some p₀ ∧
      ∀ calls p' ranges, run calls p₀ = some (p', ranges) →
        RunSound [⟨1000, 64⟩, ⟨2000, 128⟩, ⟨3000, 96⟩] p' ranges := by
  obtain ⟨htotal, hruns⟩ := @postProcess_run_sound threeEntryPool .forSweep
    threeEntrySweep _ threeEntryPool_built fun _ _ => threeEntrySweep_of
  obtain ⟨p₀, hp₀⟩ := htotal fun _ => by decide
  exact ⟨p₀, hp₀, hruns p₀ hp₀⟩

example : ((threeEntryPool.postProcess .forSweep threeEntrySweep).bind
    (run [.internalAllocate 0 64 true, .internalAllocateTLH 1 32 true, .internalAllocate 0 96 true,
      .internalAllocate 0 64 true])).map (·.2) =
    some [⟨1000, 64⟩, ⟨3000, 32⟩, ⟨2000, 96⟩, ⟨3032, 64⟩] := by
  decide +kernel

end OMR.GC.SplitPool
