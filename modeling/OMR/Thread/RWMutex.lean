import OMR.Lib.Interleaving

/-!
# The reader/writer mutex of the thread library

`omrthread_rwmutex`: a status word and a writer, changed inside one monitor except by the
writer itself. What a call does inside the monitor between entering it or coming back from
a wait, and leaving it or waiting again, is one step.
-/

namespace OMR.Thread.RWMutex

open OMR.Lib

inductive Access where
  | read
  | write
  deriving DecidableEq

inductive Operation where
  | enterRead
  | exitRead
  | enterWrite
  | tryEnterWrite
  | exitWrite
  deriving DecidableEq

/-- `J9THREAD_RWMUTEX_OK` and `J9THREAD_RWMUTEX_WOULDBLOCK`. -/
inductive Result where
  | ok
  | wouldBlock
  deriving DecidableEq

/-- `RWMutex`, with the threads that wait in `syncMon` and those that a notification has
taken out of there and that have not entered it again. -/
structure Mutex (ι : Type*) where
  status : ℤ
  writer : Option ι
  waiting : Finset ι
  notified : Finset ι

/-- How a step inside the monitor ends: in `omrthread_monitor_wait` or after
`omrthread_monitor_exit`. -/
inductive Outcome where
  | waits
  | returns (result : Result)
  deriving DecidableEq

/-- The notifications that a step inside the monitor sends. -/
inductive Notification where
  | none
  | notify
  | notifyAll
  deriving DecidableEq

section Code

variable {ι : Type*} [DecidableEq ι]

/-- What the operation does before it enters the monitor: the writer returns from all but
`exit_write` at once. -/
def beforeMonitor (self : ι) (m : Mutex ι) : Operation → Option (Mutex ι)
  | .enterRead | .exitRead => if m.writer = some self then some m else none
  | .enterWrite | .tryEnterWrite =>
    if m.writer = some self then some { m with status := m.status - 1 } else none
  | .exitWrite => none

/-- What the operation does inside the monitor. -/
def insideMonitor (self : ι) (m : Mutex ι) : Operation → Mutex ι × Outcome × Notification
  | .enterRead =>
    if m.status < 0 then (m, .waits, .none)
    else ({ m with status := m.status + 1 }, .returns .ok, .none)
  | .exitRead =>
    let m := { m with status := m.status - 1 }
    (m, .returns .ok, if 0 = m.status then .notify else .none)
  | .enterWrite =>
    if m.status ≠ 0 then (m, .waits, .none)
    else ({ m with status := m.status - 1, writer := some self }, .returns .ok, .none)
  | .tryEnterWrite =>
    if m.status ≠ 0 then (m, .returns .wouldBlock, .none)
    else ({ m with status := m.status - 1, writer := some self }, .returns .ok, .none)
  | .exitWrite =>
    let m := { m with status := m.status + 1 }
    if 0 = m.status then ({ m with writer := none }, .returns .ok, .notifyAll)
    else (m, .returns .ok, .none)

/-- The threads `s` are taken out of the wait. -/
def Mutex.wake (m : Mutex ι) (s : Finset ι) : Mutex ι :=
  { m with waiting := m.waiting \ s, notified := m.notified ∪ s }

/-- `omrthread_monitor_notify` wakes one thread that waits, if there is one, and
`omrthread_monitor_notify_all` all of them. -/
inductive Delivers : Notification → Mutex ι → Mutex ι → Prop
  | none (m : Mutex ι) : Delivers .none m m
  | nobody {m : Mutex ι} (h : m.waiting = ∅) : Delivers .notify m m
  | notify {m : Mutex ι} {i : ι} (h : i ∈ m.waiting) : Delivers .notify m (m.wake {i})
  | notifyAll (m : Mutex ι) : Delivers .notifyAll m (m.wake m.waiting)

/-- `omrthread_monitor_enter`, or the end of a wait. -/
def Mutex.enter (m : Mutex ι) (self : ι) : Mutex ι :=
  { m with notified := m.notified.erase self }

/-- `omrthread_monitor_wait` gives the monitor up and waits in it. -/
def Mutex.leave (m : Mutex ι) (self : ι) : Outcome → Mutex ι
  | .waits => { m with waiting := insert self m.waiting }
  | .returns _ => m

end Code

/-- Where a thread is. -/
inductive Phase where
  | outside
  | atMonitor (op : Operation)
  | inWait (op : Operation)
  deriving DecidableEq

/-- The accesses that a thread has entered and not left, the last one first. -/
structure Local where
  holds : List Access
  phase : Phase

/-- What the thread holds when the operation has returned. -/
def settle : Operation → Result → List Access → List Access
  | .enterRead, _, holds => .read :: holds
  | .enterWrite, _, holds => .write :: holds
  | .tryEnterWrite, .ok, holds => .write :: holds
  | .tryEnterWrite, .wouldBlock, holds => holds
  | .exitRead, _, holds | .exitWrite, _, holds => holds.tail

def Local.leave (l : Local) (op : Operation) : Outcome → Local
  | .waits => { l with phase := .inWait op }
  | .returns result => ⟨settle op result l.holds, .outside⟩

/-- The use that is documented: accesses are left in the opposite order, and a thread that
holds read access only does not ask for write access. -/
def Permitted : Operation → List Access → Prop
  | .enterRead, _ => True
  | .exitRead, holds => holds.head? = some .read
  | .enterWrite, holds | .tryEnterWrite, holds => holds = [] ∨ .write ∈ holds
  | .exitWrite, holds => holds.head? = some .write

section Threads

variable {ι : Type*} [DecidableEq ι]

/-- A thread can go on inside the monitor when it has not waited or is woken up. -/
def CanEnter (i : ι) (m : Mutex ι) (l : Local) (op : Operation) : Prop :=
  l.phase = .atMonitor op ∨ l.phase = .inWait op ∧ i ∉ m.waiting

/-- A step of thread `i`. -/
inductive Step (i : ι) : Mutex ι → Local → Mutex ι → Local → Prop
  /-- The owner's update. -/
  | asWriter {m m' : Mutex ι} {l : Local} {op : Operation} (hphase : l.phase = .outside)
      (huse : Permitted op l.holds) (h : beforeMonitor i m op = some m') :
    Step i m l m' { l with holds := settle op .ok l.holds }
  | call {m : Mutex ι} {l : Local} (op : Operation) (hphase : l.phase = .outside)
      (huse : Permitted op l.holds) (h : beforeMonitor i m op = none) :
    Step i m l m { l with phase := .atMonitor op }
  | monitor {m m₁ m₂ : Mutex ι} {l : Local} {op : Operation} {outcome : Outcome}
      {notification : Notification} (henter : CanEnter i m l op)
      (h : insideMonitor i (m.enter i) op = (m₁, outcome, notification))
      (hnotify : Delivers notification m₁ m₂) :
    Step i m l (m₂.leave i outcome) (l.leave op outcome)
  /-- A wake-up that nobody has sent. -/
  | spurious {m : Mutex ι} {l : Local} (h : i ∈ m.waiting) :
    Step i m l { m with waiting := m.waiting.erase i } l

/-- Thread `i` can take a step in which its call of the operation returns the result. -/
inductive Returns (i : ι) (m : Mutex ι) (l : Local) (op : Operation) : Result → Prop
  | asWriter {m' : Mutex ι} (hphase : l.phase = .outside) (huse : Permitted op l.holds)
      (h : beforeMonitor i m op = some m') : Returns i m l op .ok
  | monitor {m₁ : Mutex ι} {result : Result} {notification : Notification}
      (henter : CanEnter i m l op)
      (h : insideMonitor i (m.enter i) op = (m₁, .returns result, notification)) :
    Returns i m l op result

/-- The mutex that `omrthread_rwmutex_init` makes, with every thread outside. -/
def start : Threads ι (Mutex ι) Local := ⟨⟨0, none, ∅, ∅⟩, fun _ => ⟨[], .outside⟩⟩

end Threads

end OMR.Thread.RWMutex
