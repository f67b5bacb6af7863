import OMR.GC.ParallelTaskSafety

/-!
# Runs of a parallel task

In every interleaving of the threads of a task, nobody passes a synchronisation point that others
have not come to, a thread that goes on alone is alone, every work unit is handled once, and some
thread can always go on until all of them are done.
-/

namespace OMR.GC.ParallelTask

open OMR.Lib

section Steps

variable {ι : Type*} [Fintype ι] [DecidableEq ι] {master i : ι} {acts : List Act} {s s' : Task ι}
  {thread : ι → Worker} {w' : Worker}

namespace Inv

omit [DecidableEq ι] in
/-- A thread that runs code is not in the wait set. -/
theorem out_of_wait (h : Inv master acts s thread)
    (hpoint : (thread i).point ≠ .waiting s.synchronizeIndex)
    (hcomp : (thread i).point ≠ .completing) : i ∉ s.waiting := by
  intro hi
  rcases h.wait i hi with ⟨hw, -⟩ | ⟨hc, -⟩
  · exact hpoint hw
  · exact hcomp hc

omit [DecidableEq ι] in
theorem free_out (h : Inv master acts s thread) (hfree : (thread i).free = true) :
    i ∉ s.waiting := by
  obtain ⟨-, -, -, -, hwait, -, hcomp⟩ := Worker.free_spec hfree s.synchronizeIndex
  exact h.out_of_wait (hwait _) hcomp

/-- While a thread has not come to the next point, the flag is not set. -/
theorem not_synchronized (h : Inv master acts s thread)
    (hnot : (thread i).arrived s.synchronizeIndex = false) : s.synchronized = false := by
  by_contra hf
  rw [Bool.not_eq_false] at hf
  obtain ⟨j, u, hj⟩ := h.flag.1 hf
  have hnone := h.none_alone hnot j
  rw [Worker.isAlone, hj] at hnone
  cases hnone

/-- While a thread runs code among others, `handleNextWorkUnit` counts. -/
theorem indexed (h : Inv master acts s thread) (hcard : 1 < Fintype.card ι)
    (hfree : (thread i).free = true) : s.unindexed = false := by
  obtain ⟨hnot, -⟩ := Worker.free_spec hfree s.synchronizeIndex
  rw [Task.unindexed, h.not_synchronized hnot, h.total, Bool.or_false, decide_eq_false_iff_not]
  omega

omit [DecidableEq ι] in
/-- All threads have come to the point that one of them leaves alone. -/
theorem count_of_others (h : Inv master acts s thread)
    (hi : (thread i).arrived s.synchronizeIndex = true)
    (hothers : ∀ j, j ≠ i → (thread j).point = .waiting s.synchronizeIndex) :
    s.synchronizeCount = Fintype.card ι := by
  rw [h.count, threadCount, Finset.filter_true_of_mem, Finset.card_univ]
  intro j _
  by_cases hj : j = i
  · rwa [hj]
  · exact Worker.arrived_of_waiting (hothers j hj)

/-- A thread that is alone takes a step and is still alone. -/
theorem staysAlone (h : Inv master acts s thread) {point : Point} {synchronized : Bool}
    (halone : (thread i).isAlone = true)
    (hpoint : point = .released ∨ (∃ units, point = .alone units) ∨ point = .leaving)
    (hflag : synchronized = true ↔ ∃ units, point = .alone units) :
    Inv master acts { s with synchronized := synchronized }
      (Function.update thread i { thread i with point := point }) := by
  have hothers := h.others i halone
  have hshaped := (h.placed i).shaped
  have hstands : (thread i).arrived s.synchronizeIndex = true ∧
      (thread i).passed s.synchronizeIndex = s.synchronizeIndex ∧
      (∃ a acts, (thread i).rest = a :: acts ∧ a.isSync = true) ∧
      (thread i).point ≠ .waiting s.synchronizeIndex ∧ (thread i).point ≠ .completing := by
    cases hp : (thread i).point <;>
      simp_all [Worker.isAlone, Worker.arrived, Worker.passed, Worker.Shaped]
  obtain ⟨harrived, hpassed, ⟨a, rest, hrest, ha⟩, hwait, hcomp⟩ := hstands
  exact h.goesAlone hothers hpassed hrest ha (h.aloneMaster i halone) (h.out_of_wait hwait hcomp)
    hpoint rfl rfl rfl (h.count_of_others harrived hothers) rfl (h.point i harrived) hflag

/-- A thread that has taken its unit goes on in the code. -/
theorem placed_asked {index : ℕ} {w : Worker} (h : Placed acts index w) {rest : List Act}
    (hrest : w.rest = .workUnit :: rest) (hpassed : w.passed index = index) {env : Env}
    (henv : env.workUnitIndex = w.env.workUnitIndex + 1) (handles : Bool) :
    Placed acts index (w.asked rest env handles) := by
  have hsync := h.passed_eq
  have hcalls := h.calls_eq
  rw [hpassed, hrest, syncs_cons] at hsync
  rw [hrest, units_cons] at hcalls
  simp only [Act.isSync, Bool.not_false, Bool.toNat_true, Bool.toNat_false] at hsync hcalls
  refine ⟨(List.suffix_cons _ rest).trans (hrest ▸ h.suffix), hsync, ?_, ?_, trivial⟩
  · change w.calls + 1 + units rest = units acts
    omega
  · change env.workUnitIndex = w.calls + 1 + 1
    rw [henv, h.env_eq]

/-- One of the three calls of a synchronisation, from entering the monitor. -/
theorem synchronizes (h : Inv master acts s thread) {kind : SyncKind} {id alone index : ℕ}
    {rest : List Act} {outcome : Outcome}
    (hrest : (thread i).rest = .synchronize kind id alone :: rest)
    (hpoint : (thread i).point = .entering index)
    (hcall : s.synchronize kind (i = master) (.call id) (thread i).env index = (s', outcome)) :
    Inv master acts (s'.after i outcome)
      (Function.update thread i ((thread i).after rest outcome)) := by
  have hfree : (thread i).free = true := by
    rw [Worker.free, hpoint]
  obtain ⟨hnot, -, -, hpassed, -⟩ := Worker.free_spec hfree s.synchronizeIndex
  have hshaped := (h.placed i).shaped
  rw [Worker.Shaped, hpoint] at hshaped
  obtain ⟨rfl, -⟩ := hshaped
  have hid : (thread i).syncId = some (.call id) := by
    rw [Worker.syncId, hrest]
  have hat : AtSync (thread i).rest := by
    rw [hrest]
    rfl
  have hdata := arrive_point (h.asserts hat hpassed hid)
  have hthreads := h.threadCount_eq hpassed hrest rfl
  have hothers := h.others_wait hpassed hrest rfl hnot
  -- the last one to come, where the point lets it go on alone
  have hreleased (hlast : s.synchronizeCount + 1 = s.threadCount)
      (hmaster : (thread i).atReleaseMaster → i = master) :
      Inv master acts (s.arrive (.call id) (thread i).env)
        (Function.update thread i { thread i with point := .released }) := by
    refine h.goesAlone (hothers hlast) hpassed hrest rfl hmaster (h.free_out hfree) (.inl rfl)
      (by simp) (by simp) (by simp) ?_ (by simp) ?_ ?_
    · rw [arrive_synchronizeCount, hlast, hthreads]
    · rw [hid]
      exact hdata
    · rw [arrive_synchronized, h.not_synchronized hnot]
      refine ⟨fun hf => absurd hf Bool.false_ne_true, ?_⟩
      rintro ⟨u, hu⟩
      cases hu
  have hwaits (hmore : s.synchronizeCount + 1 ≠ s.threadCount) :
      Inv master acts ((s.arrive (.call id) (thread i).env).wait i)
        (Function.update thread i { thread i with point := .waiting s.synchronizeIndex }) := by
    have hinv := h.waits hfree hrest rfl hid (.inl ⟨rfl, hmore⟩)
    rw [← arrive_waiting s (.call id) (thread i).env] at hinv
    exact hinv
  cases kind with
  | threads =>
    simp only [Task.synchronize, Task.synchronizeGCThreads, arrive_synchronizeCount,
      arrive_threadCount, arrive_synchronizeIndex] at hcall
    split at hcall
    · rename_i hlast
      obtain ⟨rfl, rfl⟩ := Prod.mk.inj hcall
      refine h.passesPoint (hothers hlast) hpassed hrest rfl ?_ ?_ ?_ rfl rfl ?_
      · exact arrive_totalThreadCount ..
      · exact arrive_threadCount ..
      · exact congrArg (· + 1) (arrive_synchronizeIndex ..)
      · exact (arrive_synchronized ..).trans (h.not_synchronized hnot)
    · rename_i hmore
      obtain ⟨rfl, rfl⟩ := Prod.mk.inj hcall
      exact hwaits hmore
  | releaseMaster =>
    have hcheck (waiting : Finset ι) (hnot : ¬ (i = master ∧
        s.synchronizeCount + 1 = s.threadCount)) :
        Task.check { s.arrive (.call id) (thread i).env with waiting := waiting } .releaseMaster
          (i = master) s.synchronizeIndex = .waits s.synchronizeIndex := by
      rw [Task.check, if_pos (arrive_synchronizeIndex ..).symm, if_neg]
      rintro ⟨-, hi, hcount⟩
      rw [arrive_synchronizeCount, arrive_threadCount] at hcount
      exact hnot ⟨of_decide_eq_true hi, hcount⟩
    simp only [Task.synchronize, Task.synchronizeGCThreadsAndReleaseMaster] at hcall
    by_cases hlast : s.synchronizeCount + 1 = s.threadCount
    · rw [if_pos (by rw [arrive_synchronizeCount, arrive_threadCount, hlast])] at hcall
      by_cases hi : i = master
      · rw [if_pos (decide_eq_true hi)] at hcall
        obtain ⟨rfl, rfl⟩ := Prod.mk.inj hcall
        exact hreleased hlast fun _ => hi
      · rw [if_neg (fun hd => hi (of_decide_eq_true hd)), hcheck ∅ fun hc => hi hc.1] at hcall
        obtain ⟨rfl, rfl⟩ := Prod.mk.inj hcall
        exact h.waits hfree hrest rfl hid (.inr ⟨rfl, ⟨id, alone, rest, hrest⟩, hi⟩)
    · rw [if_neg (by rwa [arrive_synchronizeCount, arrive_threadCount])] at hcall
      have hcheck' := hcheck (s.arrive (.call id) (thread i).env).waiting fun hc => hlast hc.2
      rw [hcheck'] at hcall
      obtain ⟨rfl, rfl⟩ := Prod.mk.inj hcall
      exact hwaits hlast
  | releaseSingleThread =>
    simp only [Task.synchronize, Task.synchronizeGCThreadsAndReleaseSingleThread,
      arrive_synchronizeCount, arrive_threadCount] at hcall
    split at hcall
    · rename_i hlast
      obtain ⟨rfl, rfl⟩ := Prod.mk.inj hcall
      apply hreleased hlast
      rintro ⟨id', alone', rest', hmaster⟩
      rw [hrest] at hmaster
      cases hmaster
    · rename_i hmore
      obtain ⟨rfl, rfl⟩ := Prod.mk.inj hcall
      exact hwaits hmore

/-- A thread comes back from the wait and looks whether it may go on. -/
theorem wakes (h : Inv master acts s thread) {kind : SyncKind} {id alone index : ℕ}
    {rest : List Act} (hrest : (thread i).rest = .synchronize kind id alone :: rest)
    (hpoint : (thread i).point = .waiting index) (hout : i ∉ s.waiting) :
    Inv master acts (s.after i (s.check kind (i = master) index))
      (Function.update thread i ((thread i).after rest (s.check kind (i = master) index))) := by
  have hplaced := h.placed i
  have hshaped := hplaced.shaped
  rw [Worker.Shaped, hpoint] at hshaped
  by_cases hindex : index = s.synchronizeIndex
  · subst hindex
    have hpassed : (thread i).passed s.synchronizeIndex = s.synchronizeIndex := by
      rw [Worker.passed, hpoint]
    have harrived := Worker.arrived_of_waiting hpoint
    by_cases hgo : kind = .releaseMaster ∧ decide (i = master) = true ∧
        s.synchronizeCount = s.threadCount
    · have hcheck : s.check kind (i = master) s.synchronizeIndex = .released := by
        rw [Task.check, if_pos rfl, if_pos hgo]
      rw [hcheck]
      obtain ⟨rfl, hi, hcount⟩ := hgo
      have hmaster := of_decide_eq_true hi
      have hall : ∀ j, (thread j).arrived s.synchronizeIndex = true := by
        rw [h.count, h.threadCount_eq hpassed hrest rfl] at hcount
        exact accepts_of_threadCount_eq hcount
      have hothers (j : ι) (hj : j ≠ i) : (thread j).point = .waiting s.synchronizeIndex := by
        rcases Worker.arrived_cases (hall j) with hw | halone | hfin
        · exact hw
        · obtain ⟨hatj, hpassedj⟩ := (h.placed j).atSync (hall j)
          obtain ⟨hati, -⟩ := (h.placed i).atSync harrived
          have hrestj := h.rest_eq hatj hpassedj hati hpassed
          exact absurd ((h.aloneMaster j halone ⟨id, alone, rest, hrestj.trans hrest⟩).trans
            hmaster.symm) hj
        · rw [h.not_finished hpassed hrest rfl j] at hfin
          cases hfin
      refine h.goesAlone hothers hpassed hrest rfl (fun _ => hmaster) hout (.inl rfl) rfl rfl rfl
        (h.count_of_others harrived hothers) rfl (h.point i harrived) ?_
      apply h.flag.trans
      constructor
      · rintro ⟨j, u, hj⟩
        by_cases heq : j = i
        · rw [heq, hpoint] at hj
          cases hj
        · rw [hothers j heq] at hj
          cases hj
      · rintro ⟨u, hu⟩
        cases hu
    · have hcheck : s.check kind (i = master) s.synchronizeIndex =
          .waits s.synchronizeIndex := by
        rw [Task.check, if_pos rfl, if_neg hgo]
      have hsame : (thread i).after rest (.waits s.synchronizeIndex) = thread i := by
        rw [Worker.after, ← hpoint]
      rw [hcheck, hsame, Function.update_eq_self]
      refine h.rewaits fun j hj => ?_
      rcases Finset.mem_insert.1 hj with rfl | hj
      · refine .inl ⟨hpoint, ?_⟩
        rintro ⟨id', alone', rest', hmaster⟩ hi hcount
        refine hgo ⟨?_, ?_, hcount⟩
        · rw [hrest] at hmaster
          cases hmaster
          rfl
        · exact decide_eq_true hi
      · exact h.wait j hj
  · have hcheck : s.check kind (i = master) index = .passes := by
      rw [Task.check, if_neg hindex]
    rw [hcheck]
    have hlate := hshaped.1.resolve_left hindex
    have hnot : (thread i).arrived s.synchronizeIndex = false := by
      rw [Worker.arrived, hpoint]
      exact beq_false_of_ne hindex
    have hpassed := hplaced.passed_eq
    have hcalls := hplaced.calls_eq
    rw [Worker.passed, hpoint, hrest, syncs_cons] at hpassed
    rw [hrest, units_cons] at hcalls
    simp only [Act.isSync, Bool.toNat_true, Bool.not_true, Bool.toNat_false] at hpassed hcalls
    have hplaced' : Placed acts s.synchronizeIndex
        { thread i with rest := rest, point := .running } := by
      refine ⟨(List.suffix_cons _ rest).trans (hrest ▸ hplaced.suffix), ?_, hcalls,
        hplaced.env_eq, trivial⟩
      change s.synchronizeIndex + syncs rest = syncs acts
      omega
    exact h.moves hnot hout hplaced' rfl s.workUnitIndex

/-- A thread that has come to the end of its code is counted out of the task. -/
theorem leavesTask (h : Inv master acts s thread) {point : Point}
    (hfree : (thread i).free = true) (hrest : (thread i).rest = [])
    (hpoint : point = .completing ∧ i = master ∨ point = .done) {waiting : Finset ι}
    (hwaiting : ∀ j ∈ waiting, s.threadCount - 1 ≠ 0 ∧
      (j = i ∧ point = .completing ∨ j ≠ i ∧ j ∈ s.waiting)) :
    Inv master acts
      { s.arrive .complete (thread i).env with
        threadCount := (s.arrive .complete (thread i).env).threadCount - 1
        waiting := waiting }
      (Function.update thread i { thread i with point := point }) := by
  obtain ⟨-, -, hfin, hpassed, -⟩ := Worker.free_spec hfree s.synchronizeIndex
  have hid : (thread i).syncId = some .complete := by
    rw [Worker.syncId, hrest]
  have hat : AtSync (thread i).rest := by
    rw [hrest]
    exact trivial
  have hdata := arrive_point (h.asserts hat hpassed hid)
  rw [← hid] at hdata
  have hlt := threadCount_lt_of_not hfin
  have hleft := h.left
  refine h.finishes hfree hrest hpoint ?_ ?_ ?_ ?_ ?_ hdata fun j hj => ?_
  · exact arrive_totalThreadCount ..
  · dsimp only
    rw [arrive_threadCount]
    omega
  · exact arrive_synchronizeIndex ..
  · exact arrive_synchronizeCount ..
  · exact arrive_synchronized ..
  · dsimp only
    rw [arrive_threadCount]
    exact hwaiting j hj

/-- `complete`, from entering the monitor. -/
theorem completes (h : Inv master acts s thread) {waits : Bool}
    (hfree : (thread i).free = true) (hrest : (thread i).rest = [])
    (hcall : s.complete (i = master) (thread i).env = (s', waits)) :
    Inv master acts (if waits then s'.wait i else s')
      (Function.update thread i
        { thread i with point := if waits then .completing else .done }) := by
  have hpassed := (Worker.free_spec hfree s.synchronizeIndex).2.2.2.1
  have hout := h.free_out hfree
  have hcount := arrive_threadCount s .complete (thread i).env
  have hset := arrive_waiting s .complete (thread i).env
  by_cases hi : i = master
  · simp only [Task.complete, decide_eq_true hi, if_true] at hcall
    obtain ⟨rfl, rfl⟩ := Prod.mk.inj hcall
    by_cases hzero : (s.arrive .complete (thread i).env).threadCount - 1 = 0
    · rw [if_neg (by simpa using hzero), if_neg (by simpa using hzero)]
      refine h.leavesTask hfree hrest (.inr rfl) fun j hj => ?_
      rw [hset] at hj
      have hj' : j ≠ i := fun heq => hout (heq ▸ hj)
      rcases h.wait j hj with ⟨hw, -⟩ | ⟨hc, -⟩
      · exact absurd hw (h.at_end hrest hpassed j).2
      · exact absurd ((h.completing j hc).trans hi.symm) hj'
    · rw [if_pos (by simpa using hzero), if_pos (by simpa using hzero)]
      refine h.leavesTask hfree hrest (.inl ⟨rfl, hi⟩) fun j hj => ⟨hcount ▸ hzero, ?_⟩
      by_cases hj' : j = i
      · exact .inl ⟨hj', rfl⟩
      · exact .inr ⟨hj', hset ▸ (Finset.mem_insert.1 hj).resolve_left hj'⟩
  · simp only [Task.complete, decide_eq_false hi, if_false, Bool.false_eq_true] at hcall
    split at hcall
    · obtain ⟨rfl, rfl⟩ := Prod.mk.inj hcall
      exact h.leavesTask hfree hrest (.inr rfl) fun j hj => absurd hj (Finset.notMem_empty j)
    · rename_i hzero
      obtain ⟨rfl, rfl⟩ := Prod.mk.inj hcall
      refine h.leavesTask hfree hrest (.inr rfl) fun j hj => ⟨hcount ▸ hzero, ?_⟩
      rw [hset] at hj
      exact .inr ⟨fun heq => hout (heq ▸ hj), hj⟩

/-- Every step of the code keeps the invariant. -/
theorem move (h : Inv master acts s thread) (hcard : 1 < Fintype.card ι)
    (hmove : Move master i s (thread i) s' w') :
    Inv master acts s' (Function.update thread i w') := by
  have hplaced := h.placed i
  have hsome : ¬ s.totalThreadCount ≤ 1 := by
    rw [h.total]
    omega
  have hrunning {point : Point} (hpoint : (thread i).point = point)
      (hfree : Worker.free { thread i with point := point } = true) :
      (thread i).free = true := by
    rw [Worker.free, hpoint]
    exact hfree
  have halone {point : Point} (hpoint : (thread i).point = point)
      (halone : Worker.isAlone { thread i with point := point } = true) :
      (thread i).isAlone = true := by
    rw [Worker.isAlone, hpoint]
    exact halone
  generalize hw : thread i = w at hmove
  cases hmove with
  | unindexed hrest hpoint hun =>
    subst hw
    rw [h.indexed hcard (hrunning hpoint rfl)] at hun
    cases hun
  | @claims _ rest hrest hpoint hun =>
    subst hw
    have hfree := hrunning hpoint rfl
    obtain ⟨hnot, -, -, hpassed, -⟩ := Worker.free_spec hfree s.synchronizeIndex
    have heq := hplaced.passed_eq
    rw [hpassed] at heq
    have hplaced' : Placed acts s.synchronizeIndex { thread i with point := .claiming } :=
      ⟨hplaced.suffix, heq, hplaced.calls_eq, hplaced.env_eq, rest, hrest⟩
    exact h.moves hnot (h.free_out hfree) hplaced' rfl s.workUnitIndex
  | @takes _ rest hrest hpoint =>
    subst hw
    have hfree := hrunning hpoint rfl
    obtain ⟨hnot, -, -, hpassed, -⟩ := Worker.free_spec hfree s.synchronizeIndex
    have henv : (s.takeWorkUnit (thread i).env).2.1.workUnitIndex =
        (thread i).env.workUnitIndex + 1 := by
      unfold Task.takeWorkUnit
      dsimp only
      split <;> rfl
    obtain ⟨n, hn⟩ : ∃ n, (s.takeWorkUnit (thread i).env).1 = { s with workUnitIndex := n } := by
      unfold Task.takeWorkUnit
      dsimp only
      split
      · exact ⟨_, rfl⟩
      · exact ⟨s.workUnitIndex, rfl⟩
    rw [hn]
    exact h.moves hnot (h.free_out hfree) (placed_asked hplaced hrest hpassed henv _) rfl n
  | @enters _ kind id alone rest hrest hpoint htotal =>
    subst hw
    have hfree := hrunning hpoint rfl
    obtain ⟨hnot, -, -, hpassed, -⟩ := Worker.free_spec hfree s.synchronizeIndex
    have heq := hplaced.passed_eq
    rw [hpassed] at heq
    have hplaced' : Placed acts s.synchronizeIndex
        { thread i with point := .entering s.synchronizeIndex } :=
      ⟨hplaced.suffix, heq, hplaced.calls_eq, hplaced.env_eq, rfl, _, rest, hrest, rfl⟩
    exact h.moves hnot (h.free_out hfree) hplaced' rfl s.workUnitIndex
  | synchronizes hrest hpoint hcall =>
    subst hw
    exact h.synchronizes hrest hpoint hcall
  | passes hrest hpoint htotal => exact absurd htotal hsome
  | releasedAtOnce hrest hpoint hkind htotal => exact absurd htotal hsome
  | wakes hrest hpoint hwaiting =>
    subst hw
    exact h.wakes hrest hpoint hwaiting
  | @marks _ kind id alone rest hrest hpoint =>
    subst hw
    exact h.staysAlone (halone hpoint rfl) (.inr (.inl ⟨alone, rfl⟩))
      ⟨fun _ => ⟨alone, rfl⟩, fun _ => rfl⟩
  | @handlesAlone _ units hpoint hun =>
    subst hw
    exact h.staysAlone (halone hpoint rfl) (.inr (.inl ⟨units, rfl⟩))
      ⟨fun _ => ⟨units, rfl⟩, fun _ => h.flag.2 ⟨i, units + 1, hpoint⟩⟩
  | unmarks hpoint =>
    subst hw
    refine h.staysAlone (halone hpoint rfl) (.inr (.inr rfl))
      ⟨fun hf => absurd hf Bool.false_ne_true, ?_⟩
    rintro ⟨u, hu⟩
    cases hu
  | @leaves _ kind id alone rest hrest hpoint =>
    subst hw
    have hothers := h.others i (halone hpoint rfl)
    have hpassed : (thread i).passed s.synchronizeIndex = s.synchronizeIndex := by
      rw [Worker.passed, hpoint]
    have hnext : s.releaseSynchronizedGCThreads = s.nextIndex := by
      rw [Task.releaseSynchronizedGCThreads, if_neg]
      omega
    rw [hnext]
    refine h.passesPoint hothers hpassed hrest rfl rfl rfl rfl rfl rfl ?_
    change s.synchronized = false
    by_contra hf
    rw [Bool.not_eq_false] at hf
    obtain ⟨j, u, hj⟩ := h.flag.1 hf
    by_cases heq : j = i
    · rw [heq, hpoint] at hj
      cases hj
    · rw [hothers j heq] at hj
      cases hj
  | completes hrest hpoint htotal hcall =>
    subst hw
    exact h.completes (hrunning hpoint rfl) hrest hcall
  | completesAlone hrest hpoint htotal => exact absurd htotal hsome
  | completed hpoint hwaiting =>
    subst hw
    by_cases hzero : s.threadCount = 0
    · rw [if_neg (not_not.2 hzero), if_neg (not_not.2 hzero)]
      exact h.ends hpoint hwaiting
    · rw [if_pos hzero, if_pos hzero, ← hpoint, Function.update_eq_self]
      refine h.rewaits fun j hj => ?_
      rcases Finset.mem_insert.1 hj with rfl | hj
      · exact .inr ⟨hpoint, hzero⟩
      · exact h.wait j hj

theorem step (h : Inv master acts s thread) (hcard : 1 < Fintype.card ι)
    (hstep : Step master i s (thread i) s' w') :
    Inv master acts s' (Function.update thread i w') := by
  generalize hw : thread i = w at hstep
  cases hstep with
  | move hmove =>
    subst hw
    exact h.move hcard hmove
  | spurious hi =>
    rw [← hw, Function.update_eq_self]
    exact h.rewaits fun j hj => h.wait j (Finset.mem_of_mem_erase hj)

end Inv

variable {c : Threads ι (Task ι) Worker}

omit [Fintype ι] [DecidableEq ι] in
/-- The three calls change neither the count of threads nor that of work units. -/
theorem synchronize_counts {kind : SyncKind} {isMaster : Bool} {id : SyncId} {env : Env}
    {index : ℕ} {outcome : Outcome}
    (hcall : s.synchronize kind isMaster id env index = (s', outcome)) :
    s'.threadCount = s.threadCount ∧ s'.workUnitIndex = s.workUnitIndex := by
  cases kind <;> simp only [Task.synchronize, Task.synchronizeGCThreads,
    Task.synchronizeGCThreadsAndReleaseMaster,
    Task.synchronizeGCThreadsAndReleaseSingleThread] at hcall <;> split at hcall <;>
    try split at hcall
  all_goals
    obtain ⟨rfl, -⟩ := Prod.mk.inj hcall
    exact ⟨arrive_threadCount .., arrive_workUnitIndex ..⟩

omit [Fintype ι] in
/-- The count of threads only falls, and the master is not done before it is 0. -/
theorem Move.threadCount {w : Worker} (hcard : 1 < s.totalThreadCount)
    (h : Move master i s w s' w') : s'.threadCount ≤ s.threadCount ∧
      (i = master → w'.point = .done → w.point = .done ∨ s'.threadCount = 0) := by
  cases h with
  | unindexed hrest hpoint | claims hrest hpoint | enters hrest hpoint =>
    exact ⟨le_rfl, fun _ hdone => Point.noConfusion hdone⟩
  | takes hrest hpoint =>
    refine ⟨?_, fun _ hdone => Point.noConfusion hdone⟩
    unfold Task.takeWorkUnit
    dsimp only
    split <;> exact le_rfl
  | @synchronizes _ _ _ _ _ _ _ outcome hrest hpoint hcall =>
    have hcount := (synchronize_counts hcall).1.le
    cases outcome <;> exact ⟨hcount, fun _ hdone => Point.noConfusion hdone⟩
  | passes _ _ htotal | releasedAtOnce _ _ _ htotal | completesAlone _ _ htotal => omega
  | @wakes _ kind _ _ index =>
    cases s.check kind (i = master) index <;>
      exact ⟨le_rfl, fun _ hdone => Point.noConfusion hdone⟩
  | marks hrest hpoint => exact ⟨le_rfl, fun _ hdone => Point.noConfusion hdone⟩
  | handlesAlone hpoint => exact ⟨le_rfl, fun _ hdone => Point.noConfusion hdone⟩
  | unmarks hpoint => exact ⟨le_rfl, fun _ hdone => Point.noConfusion hdone⟩
  | leaves hrest hpoint =>
    refine ⟨?_, fun _ hdone => Point.noConfusion hdone⟩
    unfold Task.releaseSynchronizedGCThreads
    split <;> exact le_rfl
  | @completes task' _ waits hrest hpoint htotal hcall =>
    have hcount : task'.threadCount = s.threadCount - 1 := by
      simp only [Task.complete, arrive_threadCount] at hcall
      split at hcall
      · obtain ⟨rfl, -⟩ := Prod.mk.inj hcall
        rfl
      · split at hcall <;> obtain ⟨rfl, -⟩ := Prod.mk.inj hcall <;> rfl
    constructor
    · split
      · exact hcount.le.trans (Nat.sub_le _ _)
      · exact hcount.le.trans (Nat.sub_le _ _)
    · intro hi hdone
      simp only [Task.complete, decide_eq_true hi, if_true] at hcall
      obtain ⟨rfl, rfl⟩ := Prod.mk.inj hcall
      by_cases hzero : (s.arrive .complete w.env).threadCount - 1 = 0
      · refine .inr ?_
        rw [if_neg (by simpa using hzero)]
        exact hzero
      · simp only [if_pos (show decide ((s.arrive .complete w.env).threadCount - 1 ≠ 0) = true by
          simpa using hzero)] at hdone
        cases hdone
  | completed hpoint hwaiting =>
    constructor
    · split <;> exact le_rfl
    · intro _ hdone
      refine .inr ?_
      by_contra hne
      split at hdone
      · cases hdone
      · rename_i hzero
        rw [if_neg hzero] at hne
        exact hzero hne

/-- How many points of the code the thread has passed. -/
def Worker.behind (acts : List Act) (w : Worker) : ℕ := syncs acts - syncs w.rest

/-- How many points of the code the thread has come to. -/
def Worker.reached (acts : List Act) (w : Worker) : ℕ :=
  match w.point with
  | .waiting _ | .released | .alone _ | .leaving => w.behind acts + 1
  | _ => w.behind acts

end Steps

end OMR.GC.ParallelTask
