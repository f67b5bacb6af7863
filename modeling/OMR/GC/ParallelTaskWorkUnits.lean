import OMR.GC.ParallelTaskRuns

/-!
# Work units of a parallel task

`handleNextWorkUnit` hands out numbers, and a thread handles the unit of its number when its own
count of the units comes to it. Every unit that all threads have asked for is handled by one.
-/

namespace OMR.GC.ParallelTask

open OMR.Lib

/-- The thread has the number of the unit, and its count has not come to it. -/
def Worker.pending (k : ℕ) (w : Worker) : ℕ :=
  if w.env.workUnitToHandle = k ∧ w.calls < k then 1 else 0

/-- How often the thread has handled the unit, or is going to. -/
def Worker.claims (k : ℕ) (w : Worker) : ℕ := w.handled.count k + w.pending k

section WorkUnits

variable {ι : Type*} [Fintype ι] [DecidableEq ι] {master i : ι} {acts : List Act} {s s' : Task ι}
  {thread : ι → Worker} {w w' : Worker} {c : Threads ι (Task ι) Worker}

omit [DecidableEq ι] in
/-- Every number that was handed out is one thread's, and is in front of the thread or handled. -/
structure Claimed (s : Task ι) (thread : ι → Worker) : Prop where
  bounds : ∀ i, (thread i).calls ≤ (thread i).env.workUnitToHandle ∧
    (thread i).env.workUnitToHandle ≤ s.workUnitIndex
  handled : ∀ i, ∀ k ∈ (thread i).handled, 1 ≤ k ∧ k ≤ (thread i).calls
  claims : ∀ k, ∑ i, (thread i).claims k = if 1 ≤ k ∧ k ≤ s.workUnitIndex then 1 else 0

omit [Fintype ι] in
/-- Only `handleNextWorkUnit` changes what a thread knows of the units. -/
theorem Move.workUnits (h : Move master i s w s' w') :
    (w'.env = w.env ∧ w'.calls = w.calls ∧ w'.handled = w.handled ∧
      s'.workUnitIndex = s.workUnitIndex) ∨
    (s.unindexed = true ∧ w.point = .running) ∨
    (∃ rest, s' = (s.takeWorkUnit w.env).1 ∧
      w' = w.asked rest (s.takeWorkUnit w.env).2.1 (s.takeWorkUnit w.env).2.2) := by
  cases h with
  | unindexed hrest hpoint hun => exact .inr (.inl ⟨hun, hpoint⟩)
  | @takes _ rest => exact .inr (.inr ⟨rest, rfl, rfl⟩)
  | claims | enters | passes | releasedAtOnce | marks | handlesAlone | unmarks | completesAlone =>
    exact .inl ⟨rfl, rfl, rfl, rfl⟩
  | @synchronizes _ _ _ _ _ _ _ outcome hrest hpoint hcall =>
    have hindex := (synchronize_counts hcall).2
    cases outcome <;> exact .inl ⟨rfl, rfl, rfl, hindex⟩
  | @wakes _ kind _ _ index =>
    cases s.check kind (i = master) index <;> exact .inl ⟨rfl, rfl, rfl, rfl⟩
  | leaves =>
    refine .inl ⟨rfl, rfl, rfl, ?_⟩
    unfold Task.releaseSynchronizedGCThreads
    split <;> rfl
  | @completes task' _ waits hrest hpoint htotal hcall =>
    have hindex : task'.workUnitIndex = s.workUnitIndex := by
      simp only [Task.complete] at hcall
      split at hcall
      · obtain ⟨rfl, -⟩ := Prod.mk.inj hcall
        exact arrive_workUnitIndex ..
      · split at hcall <;> obtain ⟨rfl, -⟩ := Prod.mk.inj hcall <;> exact arrive_workUnitIndex ..
    refine .inl ⟨rfl, rfl, rfl, ?_⟩
    split <;> exact hindex
  | completed =>
    refine .inl ⟨rfl, rfl, rfl, ?_⟩
    split <;> rfl

theorem handled_asked {env : Env} {mine : Bool} {k : ℕ}
    (hk : k ∈ (w.asked rest env mine).handled) : k ∈ w.handled ∨ k = w.calls + 1 := by
  simp only [Worker.asked] at hk
  split at hk
  · exact (List.mem_cons.1 hk).symm
  · exact .inl hk

omit [Fintype ι] [DecidableEq ι] in
/-- A thread that asks for a unit takes a new number, or comes nearer to the one it has. -/
theorem takeWorkUnit_claims (hle : w.calls ≤ w.env.workUnitToHandle)
    (hle' : w.env.workUnitToHandle ≤ s.workUnitIndex) (henv : w.env.workUnitIndex = w.calls + 1)
    (hrest : s' = (s.takeWorkUnit w.env).1) (rest : List Act)
    (hw : w' = w.asked rest (s.takeWorkUnit w.env).2.1 (s.takeWorkUnit w.env).2.2) :
    (w'.calls ≤ w'.env.workUnitToHandle ∧ w'.env.workUnitToHandle ≤ s'.workUnitIndex ∧
      s.workUnitIndex ≤ s'.workUnitIndex) ∧
    w'.calls = w.calls + 1 ∧ (∀ k ∈ w'.handled, k ∈ w.handled ∨ k = w.calls + 1) ∧
    ∀ k, w'.claims k + (if 1 ≤ k ∧ k ≤ s.workUnitIndex then 1 else 0) =
      w.claims k + if 1 ≤ k ∧ k ≤ s'.workUnitIndex then 1 else 0 := by
  subst hrest hw
  obtain ⟨wrest, point, ⟨index, ticket⟩, calls, handled⟩ := w
  obtain rfl : index = calls + 1 := henv
  have hle : calls ≤ ticket := hle
  have hle' : ticket ≤ s.workUnitIndex := hle'
  unfold Task.takeWorkUnit
  dsimp only
  by_cases hnew : calls + 1 > ticket
  · -- a new number, the next one of all
    rw [if_pos hnew]
    obtain rfl : ticket = calls := by omega
    refine ⟨⟨?_, le_rfl, Nat.le_succ _⟩, rfl, fun k hk => ?_, fun k => ?_⟩
    · change ticket + 1 ≤ s.workUnitIndex + 1
      omega
    · exact handled_asked hk
    · simp only [Worker.claims, Worker.pending, Worker.asked]
      by_cases heq : ticket + 1 = s.workUnitIndex + 1
      · rw [if_pos (decide_eq_true heq), List.count_cons]
        simp only [beq_iff_eq]
        split_ifs <;> omega
      · rw [if_neg (by simpa using heq)]
        split_ifs <;> omega
  · -- the number that the thread has
    rw [if_neg hnew]
    refine ⟨⟨?_, hle', le_rfl⟩, rfl, fun k hk => ?_, fun k => ?_⟩
    · change calls + 1 ≤ ticket
      omega
    · exact handled_asked hk
    · simp only [Worker.claims, Worker.pending, Worker.asked]
      by_cases heq : calls + 1 = ticket
      · rw [if_pos (decide_eq_true heq), List.count_cons]
        simp only [beq_iff_eq]
        split_ifs <;> omega
      · rw [if_neg (by simpa using heq)]
        split_ifs <;> omega

theorem Claimed.step (h : Claimed c.shared c.thread) (hinv : Inv master acts c.shared c.thread)
    (hcard : 1 < Fintype.card ι) (hstep : Step master i c.shared (c.thread i) s' w') :
    Claimed s' (c.after i s' w').thread := by
  have hupdate (k : ℕ) := sum_update (Worker.claims k) c.thread i w'
  generalize hw : c.thread i = w at hstep
  have hsame (henv : w'.env = w.env) (hcalls : w'.calls = w.calls)
      (hhandled : w'.handled = w.handled) (hindex : s'.workUnitIndex = c.shared.workUnitIndex) :
      Claimed s' (c.after i s' w').thread := by
    have hclaims (k : ℕ) : w'.claims k = w.claims k := by
      rw [Worker.claims, Worker.pending, henv, hcalls, hhandled]
      rfl
    subst hw
    refine ⟨fun j => ?_, fun j => ?_, fun k => ?_⟩
    · by_cases hj : j = i
      · subst hj
        rw [Threads.after_thread_self, hcalls, henv, hindex]
        exact h.bounds j
      · rw [Threads.after_thread_of_ne _ hj, hindex]
        exact h.bounds j
    · by_cases hj : j = i
      · subst hj
        rw [Threads.after_thread_self, hcalls, hhandled]
        exact h.handled j
      · rw [Threads.after_thread_of_ne _ hj]
        exact h.handled j
    · have heq := hupdate k
      rw [hclaims] at heq
      rw [hindex, ← h.claims k]
      exact Nat.add_right_cancel heq
  cases hstep with
  | spurious hi => exact hsame rfl rfl rfl rfl
  | move hmove =>
    rcases hmove.workUnits with ⟨henv, hcalls, hhandled, hindex⟩ | ⟨hun, hpoint⟩ |
      ⟨rest, htask, hasked⟩
    · exact hsame henv hcalls hhandled hindex
    · subst hw
      have hfree : (c.thread i).free = true := by
        rw [Worker.free, hpoint]
      rw [hinv.indexed hcard hfree] at hun
      cases hun
    · subst hw
      obtain ⟨hle, hle'⟩ := h.bounds i
      obtain ⟨⟨hb, hb', hmono⟩, hcalls, hhandled, hclaims⟩ :=
        takeWorkUnit_claims hle hle' (hinv.placed i).env_eq htask rest hasked
      refine ⟨fun j => ?_, fun j => ?_, fun k => ?_⟩
      · by_cases hj : j = i
        · subst hj
          rw [Threads.after_thread_self]
          exact ⟨hb, hb'⟩
        · rw [Threads.after_thread_of_ne _ hj]
          exact ⟨(h.bounds j).1, (h.bounds j).2.trans hmono⟩
      · by_cases hj : j = i
        · subst hj
          rw [Threads.after_thread_self]
          intro k hk
          rw [hcalls]
          rcases hhandled k hk with hold | rfl
          · obtain ⟨hpos, hkle⟩ := h.handled j k hold
            exact ⟨hpos, hkle.trans (Nat.le_succ _)⟩
          · exact ⟨Nat.succ_le_succ (Nat.zero_le _), le_rfl⟩
        · rw [Threads.after_thread_of_ne _ hj]
          exact h.handled j
      · have heq := hupdate k
        have hk := hclaims k
        have hold := h.claims k
        change ∑ j, (Function.update c.thread i w' j).claims k = _
        omega

end WorkUnits

end OMR.GC.ParallelTask
