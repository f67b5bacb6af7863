import OMR.GC.ParallelTask

/-!
# Synchronisation points of a parallel task

Threads that run the same code are all between the same two synchronisation points, or wait at the
one in front of them. A thread that goes on alone does so while all others wait.
-/

namespace OMR.GC.ParallelTask

open OMR.Lib

def Act.isSync : Act → Bool
  | .workUnit => false
  | .synchronize .. => true

/-- The synchronisation points of a part of the code. -/
def syncs (acts : List Act) : ℕ := acts.countP Act.isSync

/-- The work units that a part of the code asks for. -/
def units (acts : List Act) : ℕ := acts.countP fun a => !a.isSync

/-- The code goes on with a synchronisation point, or it has come to its end. -/
def AtSync : List Act → Prop
  | [] => True
  | a :: _ => a.isSync = true

theorem syncs_cons (a : Act) (acts : List Act) :
    syncs (a :: acts) = syncs acts + a.isSync.toNat := by
  cases h : a.isSync <;> simp [syncs, h]

theorem units_cons (a : Act) (acts : List Act) :
    units (a :: acts) = units acts + (!a.isSync).toNat := by
  cases h : a.isSync <;> simp [units, h]

theorem syncs_le_of_suffix {acts acts' : List Act} (h : acts <:+ acts') :
    syncs acts ≤ syncs acts' :=
  h.sublist.countP_le

/-- Code that stands at as many synchronisation points from the end is the same code. -/
theorem eq_of_suffix {acts rest rest' : List Act} (h : rest <:+ acts) (h' : rest' <:+ acts)
    (hat : AtSync rest) (hat' : AtSync rest') (hsyncs : syncs rest = syncs rest') :
    rest = rest' := by
  have key : ∀ {l l' : List Act}, l <:+ l' → AtSync l' → syncs l = syncs l' → l = l' := by
    intro l l' hsuffix hat hsyncs
    cases l' with
    | nil => exact List.suffix_nil.1 hsuffix
    | cons a l' =>
      rcases List.suffix_cons_iff.1 hsuffix with heq | hrest
      · exact heq
      · have hle := syncs_le_of_suffix hrest
        have ha : a.isSync = true := hat
        rw [syncs_cons, ha] at hsyncs
        simp only [Bool.toNat_true] at hsyncs
        omega
  rcases List.suffix_or_suffix_of_suffix h h' with hsub | hsub
  · exact key hsub hat' hsyncs
  · exact (key hsub hat hsyncs.symm).symm

namespace Worker

/-- The thread goes on alone. -/
def isAlone (w : Worker) : Bool :=
  match w.point with
  | .released | .alone _ | .leaving => true
  | _ => false

/-- The thread has been counted in `complete`. -/
def finished (w : Worker) : Bool :=
  match w.point with
  | .completing | .done => true
  | _ => false

/-- The thread has been counted at the synchronisation point with the index. -/
def arrived (index : ℕ) (w : Worker) : Bool :=
  match w.point with
  | .waiting i => i == index
  | _ => w.isAlone || w.finished

/-- How many synchronisation points the thread has passed. -/
def passed (index : ℕ) (w : Worker) : ℕ :=
  match w.point with
  | .waiting i => i
  | _ => index

/-- What the thread still has to run begins as its place in the code asks for. -/
def Shaped (index : ℕ) (w : Worker) : Prop :=
  match w.point with
  | .running => True
  | .claiming => ∃ acts, w.rest = .workUnit :: acts
  | .entering i => i = index ∧ ∃ a acts, w.rest = a :: acts ∧ a.isSync = true
  | .waiting i => (i = index ∨ i + 1 = index) ∧ ∃ a acts, w.rest = a :: acts ∧ a.isSync = true
  | .released | .alone _ | .leaving => ∃ a acts, w.rest = a :: acts ∧ a.isSync = true
  | .completing | .done => w.rest = []

/-- The identity of the synchronisation point in front of the thread. -/
def syncId (w : Worker) : Option SyncId :=
  match w.rest with
  | [] => some .complete
  | .synchronize _ id _ :: _ => some (.call id)
  | .workUnit :: _ => none

/-- The point in front of the thread releases the master alone. -/
def atReleaseMaster (w : Worker) : Prop :=
  ∃ id alone acts, w.rest = .synchronize .releaseMaster id alone :: acts

end Worker

/-- A thread is where it should be in the code when `index` points have been passed. -/
structure Placed (acts : List Act) (index : ℕ) (w : Worker) : Prop where
  suffix : w.rest <:+ acts
  passed_eq : w.passed index + syncs w.rest = syncs acts
  calls_eq : w.calls + units w.rest = units acts
  env_eq : w.env.workUnitIndex = w.calls + 1
  shaped : w.Shaped index

section Invariant

variable {ι : Type*} [Fintype ι] {master i j : ι} {acts rest : List Act} {s : Task ι}
  {thread : ι → Worker} {a : Act}

/-- The task and its threads agree. -/
structure Inv (master : ι) (acts : List Act) (s : Task ι) (thread : ι → Worker) : Prop where
  total : s.totalThreadCount = Fintype.card ι
  placed : ∀ i, Placed acts s.synchronizeIndex (thread i)
  count : s.synchronizeCount = threadCount (Worker.arrived s.synchronizeIndex) thread
  left : s.threadCount + threadCount Worker.finished thread = Fintype.card ι
  others : ∀ i, (thread i).isAlone = true → ∀ j, j ≠ i →
    (thread j).point = .waiting s.synchronizeIndex
  aloneMaster : ∀ i, (thread i).isAlone = true → (thread i).atReleaseMaster → i = master
  full : (∀ i, (thread i).point = .waiting s.synchronizeIndex) → ∀ i, (thread i).atReleaseMaster
  flag : s.synchronized = true ↔ ∃ i alone, (thread i).point = .alone alone
  point : ∀ i, (thread i).arrived s.synchronizeIndex = true →
    s.syncPointUniqueId = (thread i).syncId ∧
      s.syncPointWorkUnitIndex = (thread i).env.workUnitIndex
  completing : ∀ i, (thread i).point = .completing → i = master
  wait : ∀ i ∈ s.waiting, (thread i).point = .waiting s.synchronizeIndex ∧
      ((thread i).atReleaseMaster → i = master → s.synchronizeCount ≠ s.threadCount) ∨
    (thread i).point = .completing ∧ s.threadCount ≠ 0

theorem Placed.atSync {index : ℕ} {w : Worker} (h : Placed acts index w)
    (harrived : w.arrived index = true) : AtSync w.rest ∧ w.passed index = index := by
  have hshaped := h.shaped
  obtain ⟨wrest, point, env, calls, handled⟩ := w
  cases point with
  | running | claiming | entering => cases harrived
  | waiting i =>
    obtain ⟨-, a, r, hrest, hsync⟩ := hshaped
    rw [show wrest = a :: r from hrest]
    exact ⟨hsync, beq_iff_eq.1 harrived⟩
  | released | alone | leaving =>
    obtain ⟨a, r, hrest, hsync⟩ := hshaped
    rw [show wrest = a :: r from hrest]
    exact ⟨hsync, rfl⟩
  | completing | done =>
    rw [show wrest = [] from hshaped]
    exact ⟨trivial, rfl⟩

theorem Placed.of_finished {index : ℕ} {w : Worker} (h : Placed acts index w)
    (hfin : w.finished = true) : w.rest = [] ∧ w.passed index = index := by
  have hshaped := h.shaped
  obtain ⟨wrest, point, env, calls, handled⟩ := w
  cases point with
  | completing | done => exact ⟨hshaped, rfl⟩
  | running | claiming | entering | waiting | released | alone | leaving => cases hfin

theorem Worker.arrived_cases {index : ℕ} {w : Worker} (h : w.arrived index = true) :
    w.point = .waiting index ∨ w.isAlone = true ∨ w.finished = true := by
  obtain ⟨wrest, point, env, calls, handled⟩ := w
  cases point with
  | running | claiming | entering => cases h
  | waiting i => exact .inl (congrArg Point.waiting (beq_iff_eq.1 h))
  | released | alone | leaving => exact .inr (.inl rfl)
  | completing | done => exact .inr (.inr rfl)

theorem Worker.arrived_of_waiting {index : ℕ} {w : Worker} (h : w.point = .waiting index) :
    w.arrived index = true := by
  rw [Worker.arrived, h]
  exact beq_self_eq_true index

namespace Inv

/-- Threads that stand at the next point stand at the same place in the code. -/
theorem rest_eq (h : Inv master acts s thread)
    (hi : AtSync (thread i).rest) (hi' : (thread i).passed s.synchronizeIndex = s.synchronizeIndex)
    (hj : AtSync (thread j).rest)
    (hj' : (thread j).passed s.synchronizeIndex = s.synchronizeIndex) :
    (thread i).rest = (thread j).rest := by
  have hpi := (h.placed i).passed_eq
  have hpj := (h.placed j).passed_eq
  rw [hi'] at hpi
  rw [hj'] at hpj
  exact eq_of_suffix (h.placed i).suffix (h.placed j).suffix hi hj
    (Nat.add_left_cancel (hpi.trans hpj.symm))

theorem env_eq_of_rest (h : Inv master acts s thread) (hrest : (thread i).rest = (thread j).rest) :
    (thread i).env.workUnitIndex = (thread j).env.workUnitIndex := by
  have hi := (h.placed i).calls_eq
  have hj := (h.placed j).calls_eq
  rw [hrest] at hi
  rw [(h.placed i).env_eq, (h.placed j).env_eq]
  omega

/-- In front of a point that calls a synchronisation, nobody has finished. -/
theorem not_finished (h : Inv master acts s thread)
    (hpassed : (thread i).passed s.synchronizeIndex = s.synchronizeIndex)
    (hrest : (thread i).rest = a :: rest) (ha : a.isSync = true) (j : ι) :
    (thread j).finished = false := by
  by_contra hfin
  rw [Bool.not_eq_false] at hfin
  have hpi := (h.placed i).passed_eq
  rw [hpassed, hrest, syncs_cons, ha, Bool.toNat_true] at hpi
  have hpj := (h.placed j).passed_eq
  obtain ⟨hnil, hpassedj⟩ := (h.placed j).of_finished hfin
  rw [hpassedj, hnil, syncs, List.countP_nil] at hpj
  omega

theorem threadCount_eq (h : Inv master acts s thread)
    (hpassed : (thread i).passed s.synchronizeIndex = s.synchronizeIndex)
    (hrest : (thread i).rest = a :: rest) (ha : a.isSync = true) :
    s.threadCount = Fintype.card ι := by
  have hleft := h.left
  rw [threadCount_eq_zero.2 (h.not_finished hpassed hrest ha), Nat.add_zero] at hleft
  exact hleft

/-- Where a thread is the last one to come to a point, all others wait there. -/
theorem others_wait (h : Inv master acts s thread)
    (hpassed : (thread i).passed s.synchronizeIndex = s.synchronizeIndex)
    (hrest : (thread i).rest = a :: rest) (ha : a.isSync = true)
    (hnot : (thread i).arrived s.synchronizeIndex = false)
    (hlast : s.synchronizeCount + 1 = s.threadCount) (j : ι) (hj : j ≠ i) :
    (thread j).point = .waiting s.synchronizeIndex := by
  rw [h.threadCount_eq hpassed hrest ha, h.count] at hlast
  rcases Worker.arrived_cases (accepts_of_threadCount_add_one hlast hnot hj) with
    hwaits | halone | hfin
  · exact hwaits
  · have hwaits := Worker.arrived_of_waiting (h.others j halone i hj.symm)
    rw [hnot] at hwaits
    cases hwaits
  · rw [h.not_finished hpassed hrest ha j] at hfin
    cases hfin

/-- The assertions hold for a thread that comes to the next point. -/
theorem asserts (h : Inv master acts s thread) (hat : AtSync (thread i).rest)
    (hpassed : (thread i).passed s.synchronizeIndex = s.synchronizeIndex) {id : SyncId}
    (hid : (thread i).syncId = some id) : s.Asserts id (thread i).env := by
  by_cases hzero : s.synchronizeCount = 0
  · exact .inl hzero
  · obtain ⟨j, hj⟩ : ∃ j, (thread j).arrived s.synchronizeIndex = true := by
      by_contra hnone
      push Not at hnone
      rw [h.count] at hzero
      exact hzero (threadCount_eq_zero.2 fun j => Bool.not_eq_true _ ▸ hnone j)
    obtain ⟨hatj, hpassedj⟩ := (h.placed j).atSync hj
    have hrest := h.rest_eq hat hpassed hatj hpassedj
    obtain ⟨hunique, hindex⟩ := h.point j hj
    refine .inr ⟨?_, ?_⟩
    · rw [hunique, ← hid, Worker.syncId, Worker.syncId, hrest]
    · rw [hindex, h.env_eq_of_rest hrest]

end Inv

end Invariant

section Arrival

variable {ι : Type*} (s : Task ι) (id : SyncId) (env : Env)

@[simp] theorem arrive_synchronizeCount :
    (s.arrive id env).synchronizeCount = s.synchronizeCount + 1 := by
  unfold Task.arrive
  split
  · rename_i h
    rw [h]
  · rfl

@[simp] theorem arrive_synchronized : (s.arrive id env).synchronized = s.synchronized := by
  unfold Task.arrive
  split <;> rfl

@[simp] theorem arrive_totalThreadCount :
    (s.arrive id env).totalThreadCount = s.totalThreadCount := by
  unfold Task.arrive
  split <;> rfl

@[simp] theorem arrive_threadCount : (s.arrive id env).threadCount = s.threadCount := by
  unfold Task.arrive
  split <;> rfl

@[simp] theorem arrive_workUnitIndex : (s.arrive id env).workUnitIndex = s.workUnitIndex := by
  unfold Task.arrive
  split <;> rfl

@[simp] theorem arrive_synchronizeIndex :
    (s.arrive id env).synchronizeIndex = s.synchronizeIndex := by
  unfold Task.arrive
  split <;> rfl

@[simp] theorem arrive_waiting : (s.arrive id env).waiting = s.waiting := by
  unfold Task.arrive
  split <;> rfl

variable {s id env}

/-- Where the assertions hold, the point's data is that of each thread that comes there. -/
theorem arrive_point (h : s.Asserts id env) : (s.arrive id env).syncPointUniqueId = some id ∧
    (s.arrive id env).syncPointWorkUnitIndex = env.workUnitIndex := by
  unfold Task.arrive
  split
  · exact ⟨rfl, rfl⟩
  · rename_i hne
    exact h.resolve_left hne

end Arrival

section Transitions

variable {ι : Type*} [Fintype ι] [DecidableEq ι] {master i : ι} {acts rest : List Act} {s : Task ι}
  {thread : ι → Worker} {a : Act} {w' : Worker}

/-- The thread runs code, or is about to enter the monitor. -/
def Worker.free (w : Worker) : Bool :=
  match w.point with
  | .running | .claiming | .entering _ => true
  | _ => false

omit [Fintype ι] in
/-- After a step of thread `i`, every other thread is as it was. -/
theorem update_cases (thread : ι → Worker) (i : ι) (w' : Worker) (j : ι) :
    j = i ∧ Function.update thread i w' j = w' ∨
      j ≠ i ∧ Function.update thread i w' j = thread j := by
  by_cases heq : j = i
  · subst heq
    exact .inl ⟨rfl, Function.update_self ..⟩
  · exact .inr ⟨heq, Function.update_of_ne heq ..⟩

/-- A thread that counts as much as before does not change the number of those that count. -/
theorem threadCount_update_eq {p : Worker → Bool} (h : p w' = p (thread i)) :
    threadCount p (Function.update thread i w') = threadCount p thread := by
  have hcount := threadCount_update p thread i w'
  rw [h] at hcount
  exact Nat.add_right_cancel hcount

theorem threadCount_update_add_one {p : Worker → Bool} (h : p (thread i) = false)
    (h' : p w' = true) :
    threadCount p (Function.update thread i w') = threadCount p thread + 1 := by
  have hcount := threadCount_update p thread i w'
  rw [h, h'] at hcount
  exact hcount

theorem Worker.free_spec {w : Worker} (h : w.free = true) (index : ℕ) :
    w.arrived index = false ∧ w.isAlone = false ∧ w.finished = false ∧ w.passed index = index ∧
      (∀ k, w.point ≠ .waiting k) ∧ (∀ k, w.point ≠ .alone k) ∧ w.point ≠ .completing := by
  obtain ⟨wrest, point, env, calls, handled⟩ := w
  cases point with
  | running | claiming | entering =>
    exact ⟨rfl, rfl, rfl, rfl, fun _ h => Point.noConfusion h, fun _ h => Point.noConfusion h,
      fun h => Point.noConfusion h⟩
  | waiting | released | alone | leaving | completing | done => cases h

theorem Worker.not_alone_of_not_arrived {w : Worker} {index : ℕ} (h : w.arrived index = false) :
    w.isAlone = false ∧ w.finished = false ∧ w.point ≠ .waiting index ∧
      (∀ k, w.point ≠ .alone k) ∧ w.point ≠ .completing := by
  obtain ⟨wrest, point, env, calls, handled⟩ := w
  cases point with
  | running | claiming | entering =>
    exact ⟨rfl, rfl, fun h => Point.noConfusion h, fun _ h => Point.noConfusion h,
      fun h => Point.noConfusion h⟩
  | waiting k =>
    refine ⟨rfl, rfl, fun heq => ?_, fun _ h => Point.noConfusion h,
      fun h => Point.noConfusion h⟩
    cases heq
    rw [Worker.arrived_of_waiting rfl] at h
    cases h
  | released | alone | leaving | completing | done => cases h

namespace Inv

/-- Nobody is alone while a thread has not come to the next point. -/
theorem none_alone (h : Inv master acts s thread)
    (hnot : (thread i).arrived s.synchronizeIndex = false) (j : ι) :
    (thread j).isAlone = false := by
  by_contra halone
  rw [Bool.not_eq_false] at halone
  by_cases hj : i = j
  · subst hj
    rw [(Worker.not_alone_of_not_arrived hnot).1] at halone
    cases halone
  · rw [Worker.arrived_of_waiting (h.others j halone i hj)] at hnot
    cases hnot

/-- What holds of a thread after its step, and held of the others before, holds of all. -/
theorem update_placed (h : Inv master acts s thread) (hplaced : Placed acts s.synchronizeIndex w')
    (j : ι) : Placed acts s.synchronizeIndex (Function.update thread i w' j) := by
  rcases update_cases thread i w' j with ⟨-, heq⟩ | ⟨-, heq⟩ <;> rw [heq]
  · exact hplaced
  · exact h.placed j

theorem update_completing (h : Inv master acts s thread) (hcomp : w'.point ≠ .completing) (j : ι) :
    (Function.update thread i w' j).point = .completing → j = master := by
  rcases update_cases thread i w' j with ⟨-, heq⟩ | ⟨-, heq⟩ <;> rw [heq]
  · exact fun hj => absurd hj hcomp
  · exact h.completing j

/-- The flag stays as it is with a step that neither begins nor ends going on alone. -/
theorem update_flag (h : Inv master acts s thread) (hbefore : ∀ u, (thread i).point ≠ .alone u)
    (hafter : ∀ u, w'.point ≠ .alone u) :
    s.synchronized = true ↔ ∃ j u, (Function.update thread i w' j).point = .alone u := by
  refine h.flag.trans (exists_congr fun j => exists_congr fun u => ?_)
  rcases update_cases thread i w' j with ⟨rfl, heq⟩ | ⟨-, heq⟩ <;> rw [heq]
  exact ⟨fun hj => absurd hj (hbefore u), fun hj => absurd hj (hafter u)⟩

/-- A thread that has not come to the next point takes a step and has not come there. -/
theorem moves (h : Inv master acts s thread)
    (hnot : (thread i).arrived s.synchronizeIndex = false) (hout : i ∉ s.waiting)
    (hplaced : Placed acts s.synchronizeIndex w') (hfree : w'.free = true) (n : ℕ) :
    Inv master acts { s with workUnitIndex := n } (Function.update thread i w') := by
  obtain ⟨hnot', halone', hfin', -, hwait', hpoint', hcomp'⟩ :=
    w'.free_spec hfree s.synchronizeIndex
  obtain ⟨halone, hfin, -, hpoint, -⟩ := Worker.not_alone_of_not_arrived hnot
  exact
    { total := h.total
      placed := h.update_placed hplaced
      count := by
        rw [threadCount_update_eq (hnot'.trans hnot.symm)]
        exact h.count
      left := by
        rw [threadCount_update_eq (hfin'.trans hfin.symm)]
        exact h.left
      others := by
        intro j hj
        have hnone : (Function.update thread i w' j).isAlone = false := by
          rcases update_cases thread i w' j with ⟨-, heq⟩ | ⟨-, heq⟩ <;> rw [heq]
          · exact halone'
          · exact h.none_alone hnot j
        rw [hnone] at hj
        cases hj
      aloneMaster := by
        intro j
        rcases update_cases thread i w' j with ⟨-, heq⟩ | ⟨-, heq⟩ <;> rw [heq]
        · intro hj
          rw [halone'] at hj
          cases hj
        · exact h.aloneMaster j
      full := fun hall => absurd (Function.update_self i w' thread ▸ hall i) (hwait' _)
      flag := h.update_flag hpoint hpoint'
      point := by
        intro j
        rcases update_cases thread i w' j with ⟨-, heq⟩ | ⟨-, heq⟩ <;> rw [heq]
        · intro hj
          rw [hnot'] at hj
          cases hj
        · exact h.point j
      completing := h.update_completing hcomp'
      wait := by
        intro j hj
        rcases update_cases thread i w' j with ⟨rfl, heq⟩ | ⟨-, heq⟩ <;> rw [heq]
        · exact absurd hj hout
        · exact h.wait j hj }

/-- A thread comes to a point at which others are still missing, or as the last one to a point
that only the master may leave. -/
theorem waits (h : Inv master acts s thread) (hfree : (thread i).free = true)
    (hrest : (thread i).rest = a :: rest) (ha : a.isSync = true) {id : SyncId}
    (hid : (thread i).syncId = some id) {waiting : Finset ι}
    (hwaiting : waiting = s.waiting ∧ s.synchronizeCount + 1 ≠ s.threadCount ∨
      waiting = ∅ ∧ (thread i).atReleaseMaster ∧ i ≠ master) :
    Inv master acts { s.arrive id (thread i).env with waiting := insert i waiting }
      (Function.update thread i { thread i with point := .waiting s.synchronizeIndex }) := by
  obtain ⟨hnot, halone, hfin, hpassed, -, hpoint, -⟩ := Worker.free_spec hfree s.synchronizeIndex
  have hat : AtSync (thread i).rest := by
    rw [hrest]
    exact ha
  have hplaced := h.placed i
  have hcases := update_cases thread i { thread i with point := .waiting s.synchronizeIndex }
  have hdata := arrive_point (h.asserts hat hpassed hid)
  have hnone := h.none_alone hnot
  have hnone' (j : ι) : (Function.update thread i
      { thread i with point := .waiting s.synchronizeIndex } j).isAlone = false := by
    rcases hcases j with ⟨-, heq⟩ | ⟨-, heq⟩ <;> rw [heq]
    · rfl
    · exact hnone j
  have hsame (j : ι) (hj : (thread j).arrived s.synchronizeIndex = true) :
      (thread i).rest = (thread j).rest := by
    obtain ⟨hatj, hpassedj⟩ := (h.placed j).atSync hj
    exact h.rest_eq hat hpassed hatj hpassedj
  exact
    { total := by simpa using h.total
      placed := by
        rw [arrive_synchronizeIndex]
        have heq := hplaced.passed_eq
        rw [hpassed] at heq
        refine h.update_placed ?_
        exact ⟨hplaced.suffix, heq, hplaced.calls_eq, hplaced.env_eq, .inl rfl, a, rest, hrest, ha⟩
      count := by
        rw [arrive_synchronizeCount, arrive_synchronizeIndex,
          threadCount_update_add_one hnot (Worker.arrived_of_waiting rfl), h.count]
      left := by
        rw [arrive_threadCount, threadCount_update_eq (by rw [hfin]; rfl)]
        exact h.left
      others := by
        intro j hj
        rw [hnone' j] at hj
        cases hj
      aloneMaster := by
        intro j hj
        rw [hnone' j] at hj
        cases hj
      full := by
        intro hall
        rw [arrive_synchronizeIndex] at hall
        have hothers (j : ι) (hj : j ≠ i) : (thread j).point = .waiting s.synchronizeIndex := by
          rw [← hall j, Function.update_of_ne hj]
        rcases hwaiting with ⟨-, hcount⟩ | ⟨-, ⟨id', alone, rest', hmaster⟩, -⟩
        · -- all have come, so that the count says so
          have hcomes : Worker.arrived s.synchronizeIndex
              { thread i with point := .waiting s.synchronizeIndex } = true :=
            Worker.arrived_of_waiting rfl
          have hfull := threadCount_update_add_one hnot hcomes
          have hcard : threadCount (Worker.arrived s.synchronizeIndex) (Function.update thread i
              { thread i with point := .waiting s.synchronizeIndex }) = Fintype.card ι := by
            rw [threadCount, Finset.filter_true_of_mem fun j _ =>
              Worker.arrived_of_waiting (hall j), Finset.card_univ]
          rw [hcard, ← h.count, ← h.threadCount_eq hpassed hrest ha] at hfull
          exact absurd hfull.symm hcount
        · intro j
          rcases hcases j with ⟨-, heq⟩ | ⟨hj, heq⟩ <;> rw [heq]
          · exact ⟨id', alone, rest', hmaster⟩
          · have hrestj := hsame j (Worker.arrived_of_waiting (hothers j hj))
            exact ⟨id', alone, rest', hrestj ▸ hmaster⟩
      flag := by
        rw [arrive_synchronized]
        exact h.update_flag hpoint fun _ hj => Point.noConfusion hj
      point := by
        intro j
        rw [arrive_synchronizeIndex]
        rcases hcases j with ⟨-, heq⟩ | ⟨-, heq⟩ <;> rw [heq]
        · exact fun _ => ⟨hdata.1.trans hid.symm, hdata.2⟩
        · intro hj
          have hrestj := hsame j hj
          refine ⟨hdata.1.trans (hid.symm.trans ?_), hdata.2.trans (h.env_eq_of_rest hrestj)⟩
          rw [Worker.syncId, Worker.syncId, hrestj]
      completing := h.update_completing fun hj => Point.noConfusion hj
      wait := by
        intro j hj
        rw [arrive_synchronizeIndex, arrive_synchronizeCount, arrive_threadCount]
        rcases hcases j with ⟨rfl, heq⟩ | ⟨hne, heq⟩ <;> rw [heq]
        · refine .inl ⟨rfl, fun _ hi => ?_⟩
          rcases hwaiting with ⟨-, hcount⟩ | ⟨-, -, hnotMaster⟩
          · exact hcount
          · exact absurd hi hnotMaster
        · rcases hwaiting with ⟨rfl, hcount⟩ | ⟨rfl, -, -⟩
          · rcases h.wait j ((Finset.mem_insert.1 hj).resolve_left hne) with ⟨hw, -⟩ | hcomp
            · exact .inl ⟨hw, fun _ _ => hcount⟩
            · exact .inr hcomp
          · exact absurd ((Finset.mem_insert.1 hj).resolve_left hne) (Finset.notMem_empty j) }

/-- In front of a point where all others wait, a thread goes on alone, or takes a step there. -/
theorem goesAlone (h : Inv master acts s thread) {s' : Task ι} {point : Point}
    (hothers : ∀ j, j ≠ i → (thread j).point = .waiting s.synchronizeIndex)
    (hpassed : (thread i).passed s.synchronizeIndex = s.synchronizeIndex)
    (hrest : (thread i).rest = a :: rest) (ha : a.isSync = true)
    (hmaster : (thread i).atReleaseMaster → i = master) (hout : i ∉ s.waiting)
    (hpoint : point = .released ∨ (∃ units, point = .alone units) ∨ point = .leaving)
    (htotal : s'.totalThreadCount = s.totalThreadCount) (hleft : s'.threadCount = s.threadCount)
    (hindex : s'.synchronizeIndex = s.synchronizeIndex)
    (hcount : s'.synchronizeCount = Fintype.card ι) (hwaiting : s'.waiting = s.waiting)
    (hdata : s'.syncPointUniqueId = (thread i).syncId ∧
      s'.syncPointWorkUnitIndex = (thread i).env.workUnitIndex)
    (hflag : s'.synchronized = true ↔ ∃ units, point = .alone units) :
    Inv master acts s' (Function.update thread i { thread i with point := point }) := by
  have halone : Worker.isAlone { thread i with point := point } = true ∧
      Worker.finished { thread i with point := point } = false ∧
      Worker.arrived s.synchronizeIndex { thread i with point := point } = true ∧
      Worker.passed s.synchronizeIndex { thread i with point := point } = s.synchronizeIndex ∧
      Worker.Shaped s.synchronizeIndex { thread i with point := point } ∧
      point ≠ .completing ∧ point ≠ .waiting s.synchronizeIndex := by
    rcases hpoint with rfl | ⟨units, rfl⟩ | rfl <;>
      exact ⟨rfl, rfl, rfl, rfl, ⟨a, rest, hrest, ha⟩, fun h => Point.noConfusion h,
        fun h => Point.noConfusion h⟩
  obtain ⟨halone, hfin, harrived, hpassed', hshaped, hcomp, hnotWaiting⟩ := halone
  have hat : AtSync (thread i).rest := by
    rw [hrest]
    exact ha
  have hplaced := h.placed i
  have hcases := update_cases thread i { thread i with point := point }
  have hnone := h.not_finished hpassed hrest ha
  have harrivedj (j : ι) (hj : j ≠ i) := Worker.arrived_of_waiting (hothers j hj)
  have hsame (j : ι) (hj : j ≠ i) : (thread i).rest = (thread j).rest := by
    obtain ⟨hatj, hpassedj⟩ := (h.placed j).atSync (harrivedj j hj)
    exact h.rest_eq hat hpassed hatj hpassedj
  exact
    { total := htotal.trans h.total
      placed := by
        rw [hindex]
        have heq := hplaced.passed_eq
        rw [hpassed] at heq
        refine h.update_placed ?_
        refine ⟨hplaced.suffix, ?_, hplaced.calls_eq, hplaced.env_eq, hshaped⟩
        rw [hpassed']
        exact heq
      count := by
        rw [hcount, hindex, threadCount, Finset.filter_true_of_mem, Finset.card_univ]
        intro j _
        rcases hcases j with ⟨-, heq⟩ | ⟨hj, heq⟩ <;> rw [heq]
        · exact harrived
        · exact harrivedj j hj
      left := by
        rw [hleft, threadCount_update_eq (hfin.trans (hnone i).symm)]
        exact h.left
      others := by
        intro j hj k hk
        have hji : j = i := by
          by_contra hne
          rw [Function.update_of_ne hne, Worker.isAlone, hothers j hne] at hj
          cases hj
        subst hji
        rw [Function.update_of_ne hk, hindex]
        exact hothers k hk
      aloneMaster := by
        intro j
        rcases hcases j with ⟨rfl, heq⟩ | ⟨hj, heq⟩ <;> rw [heq]
        · exact fun _ => hmaster
        · exact h.aloneMaster j
      full := by
        intro hall
        have hi := hall i
        rw [Function.update_self, hindex] at hi
        exact absurd hi hnotWaiting
      flag := by
        rw [hflag]
        constructor
        · rintro ⟨units, hunits⟩
          refine ⟨i, units, ?_⟩
          rw [Function.update_self]
          exact hunits
        · rintro ⟨j, units, hj⟩
          rcases hcases j with ⟨-, heq⟩ | ⟨hne, heq⟩ <;> rw [heq] at hj
          · exact ⟨units, hj⟩
          · rw [hothers j hne] at hj
            cases hj
      point := by
        intro j _
        rcases hcases j with ⟨-, heq⟩ | ⟨hne, heq⟩ <;> rw [heq]
        · exact hdata
        · have hrestj := hsame j hne
          refine ⟨hdata.1.trans ?_, hdata.2.trans (h.env_eq_of_rest hrestj)⟩
          rw [Worker.syncId, Worker.syncId, hrestj]
      completing := h.update_completing hcomp
      wait := by
        intro j hj
        rw [hwaiting] at hj
        rw [hindex, hleft]
        rcases hcases j with ⟨rfl, heq⟩ | ⟨hne, heq⟩ <;> rw [heq]
        · exact absurd hj hout
        · refine .inl ⟨hothers j hne, ?_⟩
          rintro ⟨id, units, r, hrestj⟩ hjm
          have hi := hmaster ⟨id, units, r, (hsame j hne).trans hrestj⟩
          exact absurd (hjm.trans hi.symm) hne }

/-- All others wait at the point, and the thread goes on past it and notifies them. -/
theorem passesPoint (h : Inv master acts s thread) {s' : Task ι}
    (hothers : ∀ j, j ≠ i → (thread j).point = .waiting s.synchronizeIndex)
    (hpassed : (thread i).passed s.synchronizeIndex = s.synchronizeIndex)
    (hrest : (thread i).rest = a :: rest) (ha : a.isSync = true)
    (htotal : s'.totalThreadCount = s.totalThreadCount) (hleft : s'.threadCount = s.threadCount)
    (hindex : s'.synchronizeIndex = s.synchronizeIndex + 1) (hcount : s'.synchronizeCount = 0)
    (hwaiting : s'.waiting = ∅) (hflag : s'.synchronized = false) :
    Inv master acts s' (Function.update thread i { thread i with rest := rest, point := .running })
    := by
  have hplaced := h.placed i
  have hcases := update_cases thread i { thread i with rest := rest, point := .running }
  have hnone := h.not_finished hpassed hrest ha
  have hthread (j : ι) : (Function.update thread i
      { thread i with rest := rest, point := .running } j).arrived (s.synchronizeIndex + 1) =
        false ∧ (Function.update thread i
      { thread i with rest := rest, point := .running } j).isAlone = false ∧ ∀ u,
        (Function.update thread i
      { thread i with rest := rest, point := .running } j).point ≠ .alone u := by
    rcases hcases j with ⟨-, heq⟩ | ⟨hne, heq⟩ <;> rw [heq]
    · exact ⟨rfl, rfl, fun u h => Point.noConfusion h⟩
    · rw [Worker.arrived, Worker.isAlone, hothers j hne]
      exact ⟨beq_false_of_ne (Nat.succ_ne_self _).symm, rfl, fun u h => Point.noConfusion h⟩
  exact
    { total := htotal.trans h.total
      placed := by
        intro j
        rw [hindex]
        rcases hcases j with ⟨-, heq⟩ | ⟨hne, heq⟩ <;> rw [heq]
        · have heq := hplaced.passed_eq
          have hcalls := hplaced.calls_eq
          rw [hpassed, hrest, syncs_cons, ha, Bool.toNat_true] at heq
          rw [hrest, units_cons, ha, Bool.not_true, Bool.toNat_false, Nat.add_zero] at hcalls
          refine ⟨(List.suffix_cons a rest).trans (hrest ▸ hplaced.suffix), ?_, hcalls,
            hplaced.env_eq, trivial⟩
          change s.synchronizeIndex + 1 + syncs rest = syncs acts
          omega
        · have hj := h.placed j
          have heq := hj.passed_eq
          have hshaped := hj.shaped
          rw [Worker.passed, hothers j hne] at heq
          rw [Worker.Shaped, hothers j hne] at hshaped
          refine ⟨hj.suffix, ?_, hj.calls_eq, hj.env_eq, ?_⟩
          · rw [Worker.passed, hothers j hne]
            exact heq
          · rw [Worker.Shaped, hothers j hne]
            exact ⟨.inr rfl, hshaped.2⟩
      count := by
        rw [hcount, hindex, threadCount_eq_zero.2 fun j => (hthread j).1]
      left := by
        rw [hleft, threadCount_update_eq (by rw [hnone i]; rfl)]
        exact h.left
      others := by
        intro j hj
        rw [(hthread j).2.1] at hj
        cases hj
      aloneMaster := by
        intro j hj
        rw [(hthread j).2.1] at hj
        cases hj
      full := by
        intro hall
        have hi := hall i
        rw [Function.update_self] at hi
        cases hi
      flag := by
        rw [hflag]
        refine ⟨fun hf => absurd hf Bool.false_ne_true, ?_⟩
        rintro ⟨j, u, hj⟩
        exact absurd hj ((hthread j).2.2 u)
      point := by
        intro j hj
        rw [hindex, (hthread j).1] at hj
        cases hj
      completing := h.update_completing fun hj => Point.noConfusion hj
      wait := by
        intro j hj
        rw [hwaiting] at hj
        exact absurd hj (Finset.notMem_empty j) }

omit [DecidableEq ι] in
/-- Only the wait set changes. -/
theorem rewaits (h : Inv master acts s thread) {waiting : Finset ι}
    (hwaiting : ∀ j ∈ waiting, (thread j).point = .waiting s.synchronizeIndex ∧
        ((thread j).atReleaseMaster → j = master → s.synchronizeCount ≠ s.threadCount) ∨
      (thread j).point = .completing ∧ s.threadCount ≠ 0) :
    Inv master acts { s with waiting := waiting } thread :=
  { h with wait := hwaiting }

omit [DecidableEq ι] in
/-- At the end of the code, no thread is at a call of a synchronisation. -/
theorem at_end (h : Inv master acts s thread) (hrest : (thread i).rest = [])
    (hpassed : (thread i).passed s.synchronizeIndex = s.synchronizeIndex) (j : ι) :
    (thread j).isAlone = false ∧ (thread j).point ≠ .waiting s.synchronizeIndex := by
  have hat : AtSync (thread i).rest := by
    rw [hrest]
    exact trivial
  have hnot (harrived : (thread j).arrived s.synchronizeIndex = true) :
      (thread j).rest = [] := by
    obtain ⟨hatj, hpassedj⟩ := (h.placed j).atSync harrived
    exact (h.rest_eq hat hpassed hatj hpassedj).symm.trans hrest
  have hshaped := (h.placed j).shaped
  constructor
  · by_contra halone
    rw [Bool.not_eq_false] at halone
    have harrived : (thread j).arrived s.synchronizeIndex = true := by
      cases hpoint : (thread j).point <;> simp_all [Worker.isAlone, Worker.arrived]
    have hnil := hnot harrived
    cases hpoint : (thread j).point <;> simp_all [Worker.isAlone, Worker.Shaped]
  · intro hpoint
    have hnil := hnot (Worker.arrived_of_waiting hpoint)
    rw [Worker.Shaped, hpoint] at hshaped
    obtain ⟨-, a, r, hcons, -⟩ := hshaped
    rw [hnil] at hcons
    cases hcons

/-- A thread is counted in `complete`, and is gone or waits for the others. -/
theorem finishes (h : Inv master acts s thread) {s' : Task ι} {point : Point}
    (hfree : (thread i).free = true) (hrest : (thread i).rest = [])
    (hpoint : point = .completing ∧ i = master ∨ point = .done)
    (htotal : s'.totalThreadCount = s.totalThreadCount)
    (hleft : s'.threadCount + 1 = s.threadCount)
    (hindex : s'.synchronizeIndex = s.synchronizeIndex)
    (hcount : s'.synchronizeCount = s.synchronizeCount + 1)
    (hflag : s'.synchronized = s.synchronized)
    (hdata : s'.syncPointUniqueId = (thread i).syncId ∧
      s'.syncPointWorkUnitIndex = (thread i).env.workUnitIndex)
    (hwaiting : ∀ j ∈ s'.waiting, s'.threadCount ≠ 0 ∧
      (j = i ∧ point = .completing ∨ j ≠ i ∧ j ∈ s.waiting)) :
    Inv master acts s' (Function.update thread i { thread i with point := point }) := by
  obtain ⟨hnot, halone, hfin, hpassed, -, hnotAlone, -⟩ :=
    Worker.free_spec hfree s.synchronizeIndex
  have hstands : Worker.isAlone { thread i with point := point } = false ∧
      Worker.finished { thread i with point := point } = true ∧
      Worker.arrived s.synchronizeIndex { thread i with point := point } = true ∧
      Worker.passed s.synchronizeIndex { thread i with point := point } = s.synchronizeIndex ∧
      Worker.Shaped s.synchronizeIndex { thread i with point := point } ∧
      (∀ k, point ≠ .waiting k) ∧ (∀ u, point ≠ .alone u) := by
    rcases hpoint with ⟨rfl, -⟩ | rfl <;>
      exact ⟨rfl, rfl, rfl, rfl, hrest, fun _ h => Point.noConfusion h,
        fun _ h => Point.noConfusion h⟩
  obtain ⟨halone', hfin', harrived', hpassed', hshaped', hwait', hnotAlone'⟩ := hstands
  have hplaced := h.placed i
  have hcases := update_cases thread i { thread i with point := point }
  have hat : AtSync (thread i).rest := by
    rw [hrest]
    exact trivial
  have hnone (j : ι) :
      (Function.update thread i { thread i with point := point } j).isAlone = false := by
    rcases hcases j with ⟨-, heq⟩ | ⟨-, heq⟩ <;> rw [heq]
    · exact halone'
    · exact (h.at_end hrest hpassed j).1
  exact
    { total := htotal.trans h.total
      placed := by
        rw [hindex]
        have heq := hplaced.passed_eq
        rw [hpassed] at heq
        refine h.update_placed ?_
        refine ⟨hplaced.suffix, ?_, hplaced.calls_eq, hplaced.env_eq, hshaped'⟩
        rw [hpassed']
        exact heq
      count := by
        rw [hcount, hindex, threadCount_update_add_one hnot harrived', h.count]
      left := by
        rw [threadCount_update_add_one hfin hfin', ← h.left, ← hleft]
        omega
      others := by
        intro j hj
        rw [hnone j] at hj
        cases hj
      aloneMaster := by
        intro j hj
        rw [hnone j] at hj
        cases hj
      full := by
        intro hall
        have hi := hall i
        rw [Function.update_self] at hi
        exact absurd hi (hwait' _)
      flag := by
        rw [hflag]
        exact h.update_flag hnotAlone hnotAlone'
      point := by
        intro j
        rw [hindex]
        rcases hcases j with ⟨-, heq⟩ | ⟨-, heq⟩ <;> rw [heq]
        · exact fun _ => hdata
        · intro hj
          obtain ⟨hatj, hpassedj⟩ := (h.placed j).atSync hj
          have hrestj := h.rest_eq hat hpassed hatj hpassedj
          refine ⟨hdata.1.trans ?_, hdata.2.trans (h.env_eq_of_rest hrestj)⟩
          rw [Worker.syncId, Worker.syncId, hrestj]
      completing := by
        intro j
        rcases hcases j with ⟨rfl, heq⟩ | ⟨-, heq⟩ <;> rw [heq]
        · rintro rfl
          exact (hpoint.resolve_right fun h => Point.noConfusion h).2
        · exact h.completing j
      wait := by
        intro j hj
        obtain ⟨hne, hwas⟩ := hwaiting j hj
        rcases hcases j with ⟨rfl, heq⟩ | ⟨hji, heq⟩ <;> rw [heq]
        · exact .inr ⟨(hwas.resolve_right fun h => h.1 rfl).2, hne⟩
        · rcases h.wait j (hwas.resolve_left fun h => hji h.1).2 with ⟨hw, -⟩ | ⟨hc, -⟩
          · exact absurd hw (h.at_end hrest hpassed j).2
          · exact .inr ⟨hc, hne⟩ }

/-- The master comes back from the wait in `complete`, when all are gone. -/
theorem ends (h : Inv master acts s thread) (hpoint : (thread i).point = .completing)
    (hout : i ∉ s.waiting) :
    Inv master acts s (Function.update thread i { thread i with point := .done }) := by
  have hplaced := h.placed i
  have hcases := update_cases thread i { thread i with point := .done }
  have hshaped := hplaced.shaped
  have heq' := hplaced.passed_eq
  rw [Worker.Shaped, hpoint] at hshaped
  rw [Worker.passed, hpoint] at heq'
  have harrived : (thread i).arrived s.synchronizeIndex = true := by
    rw [Worker.arrived, Worker.isAlone, Worker.finished, hpoint]
    rfl
  have hfin : (thread i).finished = true := by
    rw [Worker.finished, hpoint]
  exact
    { total := h.total
      placed := h.update_placed
        ⟨hplaced.suffix, heq', hplaced.calls_eq, hplaced.env_eq, hshaped⟩
      count := by
        rw [threadCount_update_eq (by rw [harrived]; rfl)]
        exact h.count
      left := by
        rw [threadCount_update_eq (by rw [hfin]; rfl)]
        exact h.left
      others := by
        intro j hj k hk
        have hne : j ≠ i := by
          rintro rfl
          rw [Function.update_self] at hj
          cases hj
        rw [Function.update_of_ne hne] at hj
        have hk' := h.others j hj i hne.symm
        rw [hpoint] at hk'
        cases hk'
      aloneMaster := by
        intro j
        rcases hcases j with ⟨-, heq⟩ | ⟨-, heq⟩ <;> rw [heq]
        · exact fun hj => Bool.noConfusion hj
        · exact h.aloneMaster j
      full := by
        intro hall
        have hi := hall i
        rw [Function.update_self] at hi
        cases hi
      flag := by
        refine h.update_flag (fun u hu => ?_) fun _ hu => Point.noConfusion hu
        rw [hpoint] at hu
        cases hu
      point := by
        intro j
        rcases hcases j with ⟨-, heq⟩ | ⟨-, heq⟩ <;> rw [heq]
        · exact fun _ => h.point i harrived
        · exact h.point j
      completing := h.update_completing fun hj => Point.noConfusion hj
      wait := by
        intro j hj
        rcases hcases j with ⟨rfl, heq⟩ | ⟨-, heq⟩ <;> rw [heq]
        · exact absurd hj hout
        · exact h.wait j hj }

end Inv

end Transitions

end OMR.GC.ParallelTask
