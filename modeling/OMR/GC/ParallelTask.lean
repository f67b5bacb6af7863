import OMR.Lib.Interleaving

/-!
# Threads that share a parallel task

`MM_ParallelTask`: the threads of a task run the same code, take its work units one by one and
meet at synchronisation points, all inside one monitor. What a call does there between entering
the monitor or coming back from a wait, and leaving it or waiting again, is one step.
-/

namespace OMR.GC.ParallelTask

open OMR.Lib

/-- The calls that wait for all threads. The last two let one of the threads go on alone. -/
inductive SyncKind where
  | threads
  | releaseMaster
  | releaseSingleThread
  deriving DecidableEq

/-- A part of a task's code. A thread that is released alone asks for `alone` work units before
it calls `releaseSynchronizedGCThreads`. -/
inductive Act where
  | workUnit
  | synchronize (kind : SyncKind) (id alone : ℕ)
  deriving DecidableEq

/-- `UNIQUE_ID`: where the code calls a synchronisation, or the one of `complete`. -/
inductive SyncId where
  | call (id : ℕ)
  | complete
  deriving DecidableEq

/-- `MM_ParallelTask`, with the threads in the wait set of its monitor. -/
structure Task (ι : Type*) where
  synchronized : Bool
  syncPointUniqueId : Option SyncId
  syncPointWorkUnitIndex : ℕ
  totalThreadCount : ℕ
  threadCount : ℕ
  workUnitIndex : ℕ
  synchronizeIndex : ℕ
  synchronizeCount : ℕ
  waiting : Finset ι

/-- The fields of `MM_EnvironmentBase` that a task uses. -/
structure Env where
  workUnitIndex : ℕ
  workUnitToHandle : ℕ
  deriving DecidableEq

/-- How a step inside the monitor ends: the call returns, it waits until the index has changed,
or it returns to go on alone. -/
inductive Outcome where
  | passes
  | waits (index : ℕ)
  | released
  deriving DecidableEq

section Code

variable {ι : Type*}

/-- `resetWorkUnitIndex`. -/
def resetWorkUnitIndex : Env := ⟨1, 0⟩

/-- The calls of `handleNextWorkUnit` that return true before they count. -/
def Task.unindexed (task : Task ι) : Bool := task.totalThreadCount = 1 || task.synchronized

/-- The rest of `handleNextWorkUnit`: whether the thread is to handle the unit at its index. -/
def Task.takeWorkUnit (task : Task ι) (env : Env) : Task ι × Env × Bool :=
  let index := env.workUnitIndex
  if index > env.workUnitToHandle then
    let ticket := task.workUnitIndex + 1
    ({ task with workUnitIndex := ticket }, ⟨index + 1, ticket⟩, index = ticket)
  else (task, { env with workUnitIndex := index + 1 }, index = env.workUnitToHandle)

/-- The assertions about the synchronisation point that others have reached before. -/
def Task.Asserts (task : Task ι) (id : SyncId) (env : Env) : Prop :=
  task.synchronizeCount = 0 ∨
    task.syncPointUniqueId = some id ∧ task.syncPointWorkUnitIndex = env.workUnitIndex

/-- A thread reaches a synchronisation point. -/
def Task.arrive (task : Task ι) (id : SyncId) (env : Env) : Task ι :=
  if task.synchronizeCount = 0 then
    { task with
      syncPointUniqueId := some id
      syncPointWorkUnitIndex := env.workUnitIndex
      synchronizeCount := 1 }
  else { task with synchronizeCount := task.synchronizeCount + 1 }

/-- All threads that wait are notified, and go on with the next index. -/
def Task.nextIndex (task : Task ι) : Task ι :=
  { task with
    synchronizeCount := 0
    synchronizeIndex := task.synchronizeIndex + 1
    waiting := ∅ }

/-- The loop around the wait. -/
def Task.check (task : Task ι) (kind : SyncKind) (isMaster : Bool) (index : ℕ) : Outcome :=
  if index = task.synchronizeIndex then
    if kind = .releaseMaster ∧ isMaster ∧ task.synchronizeCount = task.threadCount then .released
    else .waits index
  else .passes

/-- `synchronizeGCThreads`, from entering the monitor. -/
def Task.synchronizeGCThreads (task : Task ι) (id : SyncId) (env : Env) : Task ι × Outcome :=
  let task := task.arrive id env
  if task.synchronizeCount = task.threadCount then (task.nextIndex, .passes)
  else (task, .waits task.synchronizeIndex)

/-- `synchronizeGCThreadsAndReleaseMaster`, from entering the monitor. -/
def Task.synchronizeGCThreadsAndReleaseMaster (task : Task ι) (isMaster : Bool) (id : SyncId)
    (env : Env) (index : ℕ) : Task ι × Outcome :=
  let task := task.arrive id env
  if task.synchronizeCount = task.threadCount then
    if isMaster then (task, .released)
    else
      let task := { task with waiting := ∅ }
      (task, task.check .releaseMaster isMaster index)
  else (task, task.check .releaseMaster isMaster index)

/-- `synchronizeGCThreadsAndReleaseSingleThread`, from entering the monitor. -/
def Task.synchronizeGCThreadsAndReleaseSingleThread (task : Task ι) (id : SyncId) (env : Env)
    (index : ℕ) : Task ι × Outcome :=
  let task := task.arrive id env
  if task.synchronizeCount = task.threadCount then (task, .released) else (task, .waits index)

/-- The calls by their kind. -/
def Task.synchronize (task : Task ι) (kind : SyncKind) (isMaster : Bool) (id : SyncId) (env : Env)
    (index : ℕ) : Task ι × Outcome :=
  match kind with
  | .threads => task.synchronizeGCThreads id env
  | .releaseMaster => task.synchronizeGCThreadsAndReleaseMaster isMaster id env index
  | .releaseSingleThread => task.synchronizeGCThreadsAndReleaseSingleThread id env index

/-- `releaseSynchronizedGCThreads` inside the monitor, which a thread without others leaves out. -/
def Task.releaseSynchronizedGCThreads (task : Task ι) : Task ι :=
  if task.totalThreadCount = 1 then task else task.nextIndex

/-- `complete` inside the monitor, and whether the thread has to wait for others. -/
def Task.complete (task : Task ι) (isMaster : Bool) (env : Env) : Task ι × Bool :=
  let task := task.arrive .complete env
  let task := { task with threadCount := task.threadCount - 1 }
  if isMaster then (task, task.threadCount ≠ 0)
  else if task.threadCount = 0 then ({ task with waiting := ∅ }, false)
  else (task, false)

end Code

/-- Where a thread is in the call of its code that comes next. -/
inductive Point where
  | running
  | claiming
  | entering (index : ℕ)
  | waiting (index : ℕ)
  | released
  | alone (units : ℕ)
  | leaving
  | completing
  | done
  deriving DecidableEq

/-- A thread: the code that it has not run, where it is there, and the work units that it has
handled among others, by the number of its calls. -/
structure Worker where
  rest : List Act
  point : Point
  env : Env
  calls : ℕ
  handled : List ℕ

/-- The thread has asked for a unit and has been told whether to handle it. -/
def Worker.asked (w : Worker) (acts : List Act) (env : Env) (handles : Bool) : Worker :=
  { rest := acts
    point := .running
    env := env
    calls := w.calls + 1
    handled := if handles then (w.calls + 1) :: w.handled else w.handled }

def Worker.after (w : Worker) (acts : List Act) : Outcome → Worker
  | .passes => { w with rest := acts, point := .running }
  | .waits index => { w with point := .waiting index }
  | .released => { w with point := .released }

section Threads

variable {ι : Type*} [DecidableEq ι]

/-- `omrthread_monitor_wait` gives the monitor up and waits in it. -/
def Task.wait (task : Task ι) (i : ι) : Task ι :=
  { task with waiting := insert i task.waiting }

def Task.after (task : Task ι) (i : ι) : Outcome → Task ι
  | .waits _ => task.wait i
  | .passes | .released => task

/-- A step of the code of thread `i`. -/
inductive Move (master i : ι) : Task ι → Worker → Task ι → Worker → Prop
  | unindexed {task : Task ι} {w : Worker} {acts : List Act} (hrest : w.rest = .workUnit :: acts)
      (hpoint : w.point = .running) (h : task.unindexed = true) :
    Move master i task w task (w.asked acts w.env true)
  | claims {task : Task ι} {w : Worker} {acts : List Act} (hrest : w.rest = .workUnit :: acts)
      (hpoint : w.point = .running) (h : task.unindexed = false) :
    Move master i task w task { w with point := .claiming }
  | takes {task : Task ι} {w : Worker} {acts : List Act} (hrest : w.rest = .workUnit :: acts)
      (hpoint : w.point = .claiming) :
    Move master i task w (task.takeWorkUnit w.env).1
      (w.asked acts (task.takeWorkUnit w.env).2.1 (task.takeWorkUnit w.env).2.2)
  /-- The two calls that release a thread read the index before they enter the monitor. -/
  | enters {task : Task ι} {w : Worker} {kind : SyncKind} {id alone : ℕ} {acts : List Act}
      (hrest : w.rest = .synchronize kind id alone :: acts) (hpoint : w.point = .running)
      (htotal : 1 < task.totalThreadCount) :
    Move master i task w task { w with point := .entering task.synchronizeIndex }
  | synchronizes {task task' : Task ι} {w : Worker} {kind : SyncKind} {id alone index : ℕ}
      {acts : List Act} {outcome : Outcome} (hrest : w.rest = .synchronize kind id alone :: acts)
      (hpoint : w.point = .entering index)
      (h : task.synchronize kind (i = master) (.call id) w.env index = (task', outcome)) :
    Move master i task w (task'.after i outcome) (w.after acts outcome)
  /-- With one thread only, the calls return at once. -/
  | passes {task : Task ι} {w : Worker} {id alone : ℕ} {acts : List Act}
      (hrest : w.rest = .synchronize .threads id alone :: acts) (hpoint : w.point = .running)
      (htotal : task.totalThreadCount ≤ 1) :
    Move master i task w task (w.after acts .passes)
  | releasedAtOnce {task : Task ι} {w : Worker} {kind : SyncKind} {id alone : ℕ} {acts : List Act}
      (hrest : w.rest = .synchronize kind id alone :: acts) (hpoint : w.point = .running)
      (hkind : kind ≠ .threads) (htotal : task.totalThreadCount ≤ 1) :
    Move master i task w task (w.after acts .released)
  | wakes {task : Task ι} {w : Worker} {kind : SyncKind} {id alone index : ℕ} {acts : List Act}
      (hrest : w.rest = .synchronize kind id alone :: acts) (hpoint : w.point = .waiting index)
      (hwaiting : i ∉ task.waiting) :
    Move master i task w (task.after i (task.check kind (i = master) index))
      (w.after acts (task.check kind (i = master) index))
  /-- The thread that goes on alone sets the flag when it has left the monitor. -/
  | marks {task : Task ι} {w : Worker} {kind : SyncKind} {id alone : ℕ} {acts : List Act}
      (hrest : w.rest = .synchronize kind id alone :: acts) (hpoint : w.point = .released) :
    Move master i task w { task with synchronized := true } { w with point := .alone alone }
  | handlesAlone {task : Task ι} {w : Worker} {units : ℕ} (hpoint : w.point = .alone (units + 1))
      (h : task.unindexed = true) : Move master i task w task { w with point := .alone units }
  | unmarks {task : Task ι} {w : Worker} (hpoint : w.point = .alone 0) :
    Move master i task w { task with synchronized := false } { w with point := .leaving }
  | leaves {task : Task ι} {w : Worker} {kind : SyncKind} {id alone : ℕ} {acts : List Act}
      (hrest : w.rest = .synchronize kind id alone :: acts) (hpoint : w.point = .leaving) :
    Move master i task w task.releaseSynchronizedGCThreads (w.after acts .passes)
  | completes {task task' : Task ι} {w : Worker} {waits : Bool} (hrest : w.rest = [])
      (hpoint : w.point = .running) (htotal : 1 < task.totalThreadCount)
      (h : task.complete (i = master) w.env = (task', waits)) :
    Move master i task w (if waits then task'.wait i else task')
      { w with point := if waits then .completing else .done }
  | completesAlone {task : Task ι} {w : Worker} (hrest : w.rest = []) (hpoint : w.point = .running)
      (htotal : task.totalThreadCount ≤ 1) :
    Move master i task w { task with threadCount := task.threadCount - 1 }
      { w with point := .done }
  | completed {task : Task ι} {w : Worker} (hpoint : w.point = .completing)
      (hwaiting : i ∉ task.waiting) :
    Move master i task w (if task.threadCount ≠ 0 then task.wait i else task)
      { w with point := if task.threadCount ≠ 0 then .completing else .done }

/-- A step of the code, or a wake-up that nobody has sent. -/
inductive Step (master i : ι) : Task ι → Worker → Task ι → Worker → Prop
  | move {task task' : Task ι} {w w' : Worker} (h : Move master i task w task' w') :
    Step master i task w task' w'
  | spurious {task : Task ι} {w : Worker} (h : i ∈ task.waiting) :
    Step master i task w { task with waiting := task.waiting.erase i } w

/-- A task of `n` threads before any of them has begun to run its code. -/
def start (n : ℕ) (acts : List Act) : Threads ι (Task ι) Worker where
  shared :=
    { synchronized := false
      syncPointUniqueId := none
      syncPointWorkUnitIndex := 0
      totalThreadCount := n
      threadCount := n
      workUnitIndex := 0
      synchronizeIndex := 0
      synchronizeCount := 0
      waiting := ∅ }
  thread := fun _ => ⟨acts, .running, resetWorkUnitIndex, 0, []⟩

end Threads

end OMR.GC.ParallelTask
