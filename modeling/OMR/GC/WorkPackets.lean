import Mathlib.Algebra.BigOperators.Group.Finset.Basic
import Mathlib.Data.Fintype.Card
import OMR.Lib.ThreadProgram

/-!
# Work packets

`MM_WorkPackets` and `MM_WorkStack`: the packets of references that are still to be
traced, on lists that all threads share, and the packets that each thread works on. A list
operation is one atomic action, and so is a section under a monitor up to a wait in it; what
a thread does to a packet that it holds, or to its own stack, is one, too. A thread that waits
may wake up at any time, so that notifications have no effect of their own here.
-/

namespace OMR.GC

open OMR.Lib

/-- `_slotsInPacket`. -/
def slotsInPacket : ℕ := 512

/-- `_fullPacketThreshold`. -/
def fullPacketThreshold : ℕ := slotsInPacket / 16

/-- `_satisfactoryCapacity`. -/
def satisfactoryCapacity : ℕ := slotsInPacket / 2

/-- `_maxPacketSearch`. -/
def maxPacketSearch : ℕ := 20

/-- `_initialBlocks`. -/
def initialBlocks : ℕ := 5

/-- `shouldYieldFromTask`, as `MM_Task` and `MM_ConcurrentScavengeTask` define it. -/
def shouldYieldFromTask : Bool := false

/-- The packet lists of `MM_WorkPackets`. -/
inductive PacketListName
  | empty | full | relativelyFull | nonEmpty | deferred | deferredFull
  deriving DecidableEq

/-- An overflow handler, which remembers every item it is given until it fills a packet. -/
structure WorkPacketOverflow (I : Type) where
  State : Type
  initialState : State
  isEmpty : State → Bool
  overflowItem : State → I → State
  /-- What an empty packet is filled with, and what is left. -/
  fillFromOverflow : State → List I × State
  remembered : State → Multiset I
  remembered_initialState : remembered initialState = 0
  remembered_overflowItem : ∀ s item, remembered (overflowItem s item) = remembered s + {item}
  remembered_fillFromOverflow : ∀ s,
    ((fillFromOverflow s).1 : Multiset I) + remembered (fillFromOverflow s).2 = remembered s
  length_fillFromOverflow : ∀ s, (fillFromOverflow s).1.length ≤ slotsInPacket

/-- An overflow handler that keeps a list. -/
def WorkPacketOverflow.ofList (I : Type) : WorkPacketOverflow I where
  State := List I
  initialState := []
  isEmpty := List.isEmpty
  overflowItem items item := item :: items
  fillFromOverflow items := (items.take slotsInPacket, items.drop slotsInPacket)
  remembered items := items
  remembered_initialState := rfl
  remembered_overflowItem items item := by
    rw [← Multiset.cons_coe, ← Multiset.singleton_add, add_comm]
  remembered_fillFromOverflow items := by
    rw [Multiset.coe_add, List.take_append_drop]
  length_fillFromOverflow items := List.length_take_le ..

/-- What does not change: the sublists of each packet list, the number that picks a thread's
own, and `_maxPackets`. -/
structure PacketConfig (T : Type) where
  sublistCount : ℕ
  sublistCount_pos : 0 < sublistCount
  environmentId : T → ℕ
  maxPackets : ℕ

/-- `MM_WorkStack`. -/
structure WorkStack (P : Type) where
  /-- `_workPackets` is not `NULL`. -/
  attached : Bool
  inputPacket : Option P
  outputPacket : Option P
  deferredPacket : Option P
  pushCount : ℕ

/-- What a thread can do with its work stack, and with packets that it gets from the work
packets itself. -/
inductive WorkOperation (I : Type)
  | prepareForWork
  | push (element : I)
  | push2 (element1 element2 : I)
  | pushDefer (element : I)
  | pop
  | popNoWait
  | popNoWaitFromCurrentInputPacket
  | flushOutputPacket
  | flush
  | getInputPacket
  | getInputPacketNoWait
  | getOutputPacket
  | getDeferredPacket
  | pushTo (index : ℕ) (items : List I)
  | popFrom (index : ℕ)
  | emptyToOverflow (index : ℕ)
  | putPacket (index : ℕ)
  | putOutputPacket (index : ℕ)
  | putDeferredPacket (index : ℕ)

/-- A thread, as a user of the work packets. -/
structure WorkClient (P I : Type) where
  workStack : WorkStack P
  /-- The packets that the thread got itself. -/
  packets : List P
  /-- The operation that the thread is in. -/
  operation : Option (WorkOperation I)

/-- The state that the threads share, with each thread's own part. A packet's contents are the
slots in use, the last one first. -/
structure WorkPackets (P T I : Type) (overflow : WorkPacketOverflow I) where
  /-- The sublists of each list. -/
  lists : PacketListName → ℕ → List P
  contents : P → List I
  activePackets : ℕ
  /-- What the forge answers to requests for blocks of packets. -/
  forge : List (Option (List P))
  overflowState : overflow.State
  inputListWaitCount : ℕ
  inputListDoneIndex : ℕ
  client : T → WorkClient P I
  /-- The packets of all blocks. -/
  packets : Finset P
  /-- The packets that a thread has taken off a list and not put on one since. -/
  held : T → Finset P
  /-- The done index that a thread read at the start of `getInputPacket`. -/
  readIndex : T → ℕ
  /-- The done index for which a thread waits in `getInputPacket`. -/
  waitingIn : T → Option ℕ
  /-- The done index at which a packet was put on a list. -/
  putIn : P → ℕ
  pushed : Multiset I
  popped : Multiset I
  /-- The free slots of the packets that `getOutputPacket` has returned. -/
  outputRoom : List ℕ
  /-- What a call of `getInputPacket` that returned `NULL` read first, and the done index then. -/
  nullReturns : List (ℕ × ℕ)
  assertionFailed : Bool

/-- Code of a thread. -/
abbrev PacketCode (P T I : Type) (overflow : WorkPacketOverflow I) :=
  Program (WorkPackets P T I overflow)

namespace WorkPackets

variable {P T I : Type} [DecidableEq P] [DecidableEq T] {overflow : WorkPacketOverflow I}

/-- A sublist is replaced. -/
def setSublist (w : WorkPackets P T I overflow) (name : PacketListName) (index : ℕ)
    (packets : List P) : WorkPackets P T I overflow :=
  { w with
    lists := Function.update w.lists name (Function.update (w.lists name) index packets) }

def setContents (w : WorkPackets P T I overflow) (packet : P) (items : List I) :
    WorkPackets P T I overflow :=
  { w with contents := Function.update w.contents packet items }

def setClient (w : WorkPackets P T I overflow) (t : T) (client : WorkClient P I) :
    WorkPackets P T I overflow :=
  { w with client := Function.update w.client t client }

def setHeld (w : WorkPackets P T I overflow) (t : T) (packets : Finset P) :
    WorkPackets P T I overflow :=
  { w with held := Function.update w.held t packets }

section Lists

variable (cfg : PacketConfig T)

/-- `MM_PacketList::isEmpty`. -/
def listIsEmpty (w : WorkPackets P T I overflow) (name : PacketListName) : Bool :=
  (List.range cfg.sublistCount).all fun i => (w.lists name i).isEmpty

/-- `MM_PacketList::getCount`. -/
def getCount (w : WorkPackets P T I overflow) (name : PacketListName) : ℕ :=
  ((List.range cfg.sublistCount).map fun i => (w.lists name i).length).sum

/-- The sublist that `MM_PacketList::pop` takes a packet from: the first that has one, from the
thread's own on. -/
def popIndex (w : WorkPackets P T I overflow) (t : T) (name : PacketListName) : Option ℕ :=
  ((List.range cfg.sublistCount).map fun i =>
    (cfg.environmentId t + i) % cfg.sublistCount).find? fun i => !(w.lists name i).isEmpty

/-- `MM_PacketList::pop`. -/
def pop (t : T) (name : PacketListName) (w : WorkPackets P T I overflow) :
    Option P × WorkPackets P T I overflow :=
  match w.popIndex cfg t name with
  | none => (none, w)
  | some i =>
    match w.lists name i with
    | [] => (none, w)
    | packet :: rest =>
      (some packet, (w.setSublist name i rest).setHeld t (insert packet (w.held t)))

/-- `MM_PacketList::push`. -/
def push (t : T) (name : PacketListName) (packet : P) (w : WorkPackets P T I overflow) :
    WorkPackets P T I overflow :=
  let index := cfg.environmentId t % cfg.sublistCount
  { (w.setSublist name index (packet :: w.lists name index)).setHeld t ((w.held t).erase packet) with
    putIn := Function.update w.putIn packet w.inputListDoneIndex }

/-- `inputPacketAvailable`, where nothing happens in between. -/
def inputPacketAvailable (w : WorkPackets P T I overflow) : Bool :=
  !w.listIsEmpty cfg .full || !w.listIsEmpty cfg .relativelyFull || !w.listIsEmpty cfg .nonEmpty ||
    !overflow.isEmpty w.overflowState

/-- `initWorkPacketsBlock`, under `_allocatingPackets`: the new packets are pushed as a list. -/
def initWorkPacketsBlock (w : WorkPackets P T I overflow) : Bool × WorkPackets P T I overflow :=
  if cfg.maxPackets ≤ w.activePackets then (false, w)
  else
    match w.forge with
    | [] => (false, w)
    | none :: forge => (false, { w with forge := forge })
    | some block :: forge =>
      (true, { w.setSublist .empty 0 (block ++ w.lists .empty 0) with
        contents := fun packet => if packet ∈ block then [] else w.contents packet
        putIn := fun packet => if packet ∈ block then w.inputListDoneIndex else w.putIn packet
        packets := w.packets ∪ block.toFinset
        activePackets := w.activePackets + block.length
        forge := forge })

/-- How a section under `_inputListMonitor` ends. -/
inductive Section
  | waiting
  | left (doneFlag : Bool)

/-- The read of the done index at the start of `getInputPacket`. -/
def readDoneIndex (t : T) (w : WorkPackets P T I overflow) : ℕ × WorkPackets P T I overflow :=
  (w.inputListDoneIndex,
    { w with readIndex := Function.update w.readIndex t w.inputListDoneIndex })

/-- The last part of a section, which sets the local done flag. With it, the call returns `NULL`. -/
def leave (t : T) (doneIndex : ℕ) (w : WorkPackets P T I overflow) :
    Section × WorkPackets P T I overflow :=
  let waitingIn := Function.update w.waitingIn t none
  if w.inputListDoneIndex ≠ doneIndex then
    (.left true, { w with
      waitingIn := waitingIn
      nullReturns := (doneIndex, w.inputListDoneIndex) :: w.nullReturns })
  else
    (.left false, { w with
      waitingIn := waitingIn
      inputListWaitCount := w.inputListWaitCount - 1 })

/-- The condition to wait, and what follows the wait loop. -/
def waitOrLeave (t : T) (doneIndex : ℕ) (w : WorkPackets P T I overflow) :
    Section × WorkPackets P T I overflow :=
  if shouldYieldFromTask ∨ ¬ w.inputPacketAvailable cfg ∧ w.inputListDoneIndex = doneIndex then
    (.waiting, w)
  else w.leave t doneIndex

/-- The section of `getInputPacket` from the entry of the monitor on, for the threads of the
current task. -/
def enter [Fintype T] (t : T) (doneIndex : ℕ) (w : WorkPackets P T I overflow) :
    Section × WorkPackets P T I overflow :=
  if doneIndex = w.inputListDoneIndex then
    let w := { w with
      inputListWaitCount := w.inputListWaitCount + 1
      waitingIn := Function.update w.waitingIn t (some doneIndex) }
    if w.inputListWaitCount = Fintype.card T ∧
        (shouldYieldFromTask ∨ ¬ w.inputPacketAvailable cfg) then
      leave t doneIndex
        { w with inputListDoneIndex := w.inputListDoneIndex + 1, inputListWaitCount := 0 }
    else w.waitOrLeave cfg t doneIndex
  else w.leave t doneIndex

end Lists

section Packet

/-- `MM_Packet::push`, which stores the items if they all fit. -/
def storeItems (packet : P) (items : List I) (w : WorkPackets P T I overflow) :
    Bool × WorkPackets P T I overflow :=
  if (w.contents packet).length + items.length ≤ slotsInPacket then
    (true, w.setContents packet (items ++ w.contents packet))
  else (false, w)

/-- A push whose result is looked at: it counts if it succeeds. -/
def tryPush (packet : P) (items : List I) (w : WorkPackets P T I overflow) :
    Bool × WorkPackets P T I overflow :=
  let (stored, w) := w.storeItems packet items
  (stored, if stored then { w with pushed := w.pushed + items } else w)

/-- A push whose result nobody looks at: it counts in any case. -/
def mustPush (packet : P) (items : List I) (w : WorkPackets P T I overflow) :
    Unit × WorkPackets P T I overflow :=
  ((), { (w.storeItems packet items).2 with pushed := w.pushed + items })

/-- `MM_Packet::pop`. -/
def packetPop (packet : P) (w : WorkPackets P T I overflow) :
    Option I × WorkPackets P T I overflow :=
  match w.contents packet with
  | [] => (none, w)
  | item :: items => (some item, { w.setContents packet items with popped := w.popped + {item} })

/-- One round of the loop in `emptyToOverflow`: an item is popped and remembered. -/
def overflowPop (packet : P) (w : WorkPackets P T I overflow) :
    Option Unit × WorkPackets P T I overflow :=
  match w.contents packet with
  | [] => (some (), w)
  | item :: items => (none, { w.setContents packet items with
      overflowState := overflow.overflowItem w.overflowState item })

/-- `fillFromOverflow`, for an empty packet. -/
def fillFromOverflow (packet : P) (w : WorkPackets P T I overflow) :
    Unit × WorkPackets P T I overflow :=
  ((), { w.setContents packet ((overflow.fillFromOverflow w.overflowState).1 ++ w.contents packet) with
    overflowState := (overflow.fillFromOverflow w.overflowState).2 })

/-- `overflowItem`. -/
def overflowItem (item : I) (w : WorkPackets P T I overflow) : Unit × WorkPackets P T I overflow :=
  ((), { w with
    overflowState := overflow.overflowItem w.overflowState item
    pushed := w.pushed + {item} })

end Packet

end WorkPackets

end OMR.GC
