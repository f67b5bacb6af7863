import OMR.GC.WorkPackets

/-!
# The code of `MM_WorkPackets` and `MM_WorkStack`

What thread `t` runs, as programs over the shared state. Every access to a packet list is an
action of its own, so that other threads may come in between.
-/

namespace OMR.GC

open OMR.Lib Program

variable {P T I : Type} [DecidableEq P] [DecidableEq T] [Fintype T]
  {overflow : WorkPacketOverflow I}

namespace PacketCode

/-- A value that is read from the state. -/
def read {A : Type} (f : WorkPackets P T I overflow → A) : PacketCode P T I overflow A :=
  atomic fun w => (f w, w)

variable (cfg : PacketConfig T) (t : T)

def isEmpty (name : PacketListName) : PacketCode P T I overflow Bool :=
  read fun w => w.listIsEmpty cfg name

/-- `MM_Packet::freeSlots`. -/
def freeSlots (packet : P) : PacketCode P T I overflow ℕ :=
  read fun w => slotsInPacket - (w.contents packet).length

/-- `MM_Packet::isEmpty`. -/
def packetIsEmpty (packet : P) : PacketCode P T I overflow Bool :=
  read fun w => (w.contents packet).isEmpty

def getPacket (name : PacketListName) : PacketCode P T I overflow (Option P) :=
  atomic (WorkPackets.pop cfg t name)

def pushPacket (name : PacketListName) (packet : P) : PacketCode P T I overflow Unit :=
  atomic fun w => ((), w.push cfg t name packet)

/-- The first packet that one of several attempts gives. -/
def firstOf : List (PacketCode P T I overflow (Option P)) → PacketCode P T I overflow (Option P)
  | [] => pure none
  | attempt :: attempts => do
    match ← attempt with
    | some packet => return some packet
    | none => firstOf attempts

/-- The list that `putPacket` chooses. -/
def listFor (freeSlots : ℕ) : PacketListName :=
  if freeSlots = slotsInPacket then .empty
  else if freeSlots = 0 then .full
  else if freeSlots < fullPacketThreshold then .relativelyFull
  else .nonEmpty

def putPacket (packet : P) : PacketCode P T I overflow Unit := do
  let freeSlots ← freeSlots packet
  pushPacket cfg t (listFor freeSlots) packet

def putOutputPacket (packet : P) : PacketCode P T I overflow Unit := putPacket cfg t packet

def getDeferredPacket : PacketCode P T I overflow (Option P) :=
  firstOf [getPacket cfg t .deferred, getPacket cfg t .empty]

def putDeferredPacket (packet : P) : PacketCode P T I overflow Unit := do
  let freeSlots ← freeSlots packet
  pushPacket cfg t (if freeSlots = 0 then .deferredFull else .deferred) packet

/-- `inputPacketAvailable`, outside of a monitor. -/
def inputPacketAvailable : PacketCode P T I overflow Bool := do
  if !(← isEmpty cfg .full) then return true
  if !(← isEmpty cfg .relativelyFull) then return true
  if !(← isEmpty cfg .nonEmpty) then return true
  return !(← read fun w => overflow.isEmpty w.overflowState)

def getInputPacketFromOverflow : PacketCode P T I overflow (Option P) :=
  repeatUntil do
    if ← read fun w => overflow.isEmpty w.overflowState then return some none
    match ← getPacket cfg t .empty with
    | none => return none
    | some overflowPacket =>
      atomic (WorkPackets.fillFromOverflow overflowPacket)
      if ← packetIsEmpty overflowPacket then
        putPacket cfg t overflowPacket
        return none
      else return some (some overflowPacket)

/-- Whether `getInputPacketNoWait` starts with the packets that are not full. -/
def nonEmptyFirst : PacketCode P T I overflow Bool := do
  if ← isEmpty cfg .nonEmpty then return false
  read fun w => decide (w.getCount cfg .empty < w.activePackets / 4)

def getInputPacketNoWait : PacketCode P T I overflow (Option P) := do
  if !(← inputPacketAvailable cfg) then return none
  if ← nonEmptyFirst cfg then
    firstOf [getPacket cfg t .nonEmpty, getPacket cfg t .relativelyFull, getPacket cfg t .full,
      getInputPacketFromOverflow cfg t]
  else
    firstOf [getPacket cfg t .full, getPacket cfg t .relativelyFull, getPacket cfg t .nonEmpty,
      getInputPacketFromOverflow cfg t]

/-- The inner loop of `getInputPacket`, before the monitor is entered. -/
def searchInputPacket : PacketCode P T I overflow (Option P) :=
  repeatUntil do
    if !(← inputPacketAvailable cfg) then return some none
    match ← getInputPacketNoWait cfg t with
    | some packet => return some (some packet)
    | none => return none

/-- The monitor section of `getInputPacket`, with its waits. The result is whether the call
returns `NULL`. -/
def inputListSection (doneIndex : ℕ) : PacketCode P T I overflow Bool := do
  match ← atomic (WorkPackets.enter cfg t doneIndex) with
  | .left doneFlag => return doneFlag
  | .waiting =>
    repeatUntil do
      -- a thread that has been woken up
      if shouldYieldFromTask then return some true
      match ← atomic (WorkPackets.waitOrLeave cfg t doneIndex) with
      | .left doneFlag => return some doneFlag
      | .waiting => return none

def getInputPacket : PacketCode P T I overflow (Option P) := do
  let doneIndex ← atomic (WorkPackets.readDoneIndex t)
  repeatUntil do
    let packet ← if shouldYieldFromTask then pure none else searchInputPacket cfg t
    match packet with
    | some packet => return some (some packet)
    | none =>
      if ← inputListSection cfg t doneIndex then return some none
      else return none

/-- The search of `getLeastFullPacket`: at most `rounds` more packets are got. The packets got so
far are in `temps`, the last one first. -/
def searchLeastFull (requiredSlots : ℕ) :
    (rounds : ℕ) → (temps : List P) → (selected : Option ℕ) → (maxCapacity : ℕ) →
      PacketCode P T I overflow (List P × Option ℕ)
  | 0, temps, selected, _ => return (temps, selected)
  | rounds + 1, temps, selected, maxCapacity => do
    match ← firstOf [getPacket cfg t .nonEmpty, getPacket cfg t .relativelyFull] with
    | none => return (temps, selected)
    | some packet =>
      let curCapacity ← freeSlots packet
      if maxCapacity < curCapacity then
        if max satisfactoryCapacity requiredSlots ≤ curCapacity then
          return (packet :: temps, some temps.length)
        else searchLeastFull requiredSlots rounds (packet :: temps) (some temps.length) curCapacity
      else if fullPacketThreshold ≤ maxCapacity ∧ curCapacity < fullPacketThreshold then
        return (packet :: temps, selected)
      else searchLeastFull requiredSlots rounds (packet :: temps) selected maxCapacity

/-- The packets that were not selected are returned. -/
def putOthers (selected : Option ℕ) : (temps : List P) → PacketCode P T I overflow Unit
  | [] => pure ()
  | packet :: temps => do
    if selected = some temps.length then putOthers selected temps
    else
      putPacket cfg t packet
      putOthers selected temps

def getLeastFullPacket (requiredSlots : ℕ) : PacketCode P T I overflow (Option P) := do
  let (temps, selected) ← searchLeastFull cfg t requiredSlots maxPacketSearch [] none
    (requiredSlots - 1)
  putOthers cfg t selected temps
  return selected.bind fun i => temps.reverse[i]?

def getPacketByAdddingWorkPacketBlock : PacketCode P T I overflow (Option P) := do
  match ← getPacket cfg t .empty with
  | some packet => return some packet
  | none =>
    if ← atomic (WorkPackets.initWorkPacketsBlock cfg) then getPacket cfg t .empty
    else return none

def emptyToOverflow (packet : P) : PacketCode P T I overflow Unit :=
  repeatUntil (atomic (WorkPackets.overflowPop packet))

def getPacketByOverflowing : PacketCode P T I overflow (Option P) := do
  match ← getPacket cfg t .full with
  | some packet =>
    emptyToOverflow packet
    return some packet
  | none => firstOf [getPacket cfg t .empty, getLeastFullPacket cfg t 2]

/-- The room of a packet that `getOutputPacket` returns is recorded. -/
def returnOutputPacket : Option P → PacketCode P T I overflow (Option P)
  | none => return none
  | some packet => atomic fun w => (some packet, { w with
      outputRoom := (slotsInPacket - (w.contents packet).length) :: w.outputRoom })

def getOutputPacket : PacketCode P T I overflow (Option P) := do
  let outputPacket ← firstOf [getPacket cfg t .empty, getLeastFullPacket cfg t 2,
    getPacketByAdddingWorkPacketBlock cfg t, getLeastFullPacket cfg t 2,
    getPacketByOverflowing cfg t]
  returnOutputPacket outputPacket

end PacketCode

namespace WorkStack

open PacketCode

variable (cfg : PacketConfig T) (t : T)

/-- The stack of the thread. -/
def get : PacketCode P T I overflow (WorkStack P) := read fun w => (w.client t).workStack

def set (stack : WorkStack P) : PacketCode P T I overflow Unit :=
  atomic fun w => ((), w.setClient t { w.client t with workStack := stack })

/-- A packet that is there is put somewhere. -/
def putIfPresent (put : P → PacketCode P T I overflow Unit) :
    Option P → PacketCode P T I overflow Unit
  | none => pure ()
  | some packet => put packet

/-- The items go to the overflow handler one by one. -/
def overflowItems : List I → PacketCode P T I overflow Unit
  | [] => pure ()
  | item :: items => do
    atomic (WorkPackets.overflowItem item)
    overflowItems items

/-- `pushFailed`, for one element or two. -/
def pushFailed (elements : List I) : PacketCode P T I overflow Unit := do
  let stack ← get t
  putIfPresent (putOutputPacket cfg t) stack.outputPacket
  let outputPacket ← getOutputPacket cfg t
  set t { stack with outputPacket := outputPacket }
  match outputPacket with
  | none => overflowItems elements
  | some packet =>
    atomic (WorkPackets.mustPush packet elements)
    set t { stack with
      outputPacket := outputPacket
      pushCount := stack.pushCount + elements.length }

/-- `push`, for one element or two. -/
def pushAll (elements : List I) : PacketCode P T I overflow Unit := do
  let stack ← get t
  match stack.outputPacket with
  | none => pushFailed cfg t elements
  | some packet =>
    if ← atomic (WorkPackets.tryPush packet elements) then
      set t { stack with pushCount := stack.pushCount + elements.length }
    else pushFailed cfg t elements

def push (element : I) : PacketCode P T I overflow Unit := pushAll cfg t [element]

def push2 (element1 element2 : I) : PacketCode P T I overflow Unit :=
  pushAll cfg t [element1, element2]

/-- The part of `pushDefer` that needs another deferred packet. -/
def pushNewDeferred (element : I) : PacketCode P T I overflow Unit := do
  let stack ← get t
  let deferredPacket ← getDeferredPacket cfg t
  set t { stack with deferredPacket := deferredPacket }
  match deferredPacket with
  | none => push cfg t element
  | some packet => atomic (WorkPackets.mustPush packet [element])

def pushDefer (element : I) : PacketCode P T I overflow Unit := do
  let stack ← get t
  match stack.deferredPacket with
  | none => pushNewDeferred cfg t element
  | some packet =>
    if ← atomic (WorkPackets.tryPush packet [element]) then return ()
    else
      putDeferredPacket cfg t packet
      pushNewDeferred cfg t element

/-- A pop from the input packet, if there is one. -/
def popInputPacket : PacketCode P T I overflow (Option I) := do
  let stack ← get t
  match stack.inputPacket with
  | none => return none
  | some packet => atomic (WorkPackets.packetPop packet)

/-- The input packet has been used up. -/
def putInputPacket : PacketCode P T I overflow Unit := do
  let stack ← get t
  putIfPresent (putPacket cfg t) stack.inputPacket
  set t { stack with inputPacket := none }

def retrieveInputPacket : PacketCode P T I overflow Bool := do
  let inputPacket ← getInputPacketNoWait cfg t
  let stack ← get t
  set t { stack with inputPacket := inputPacket }
  match inputPacket, stack.outputPacket with
  | some _, _ => return true
  | none, none => return false
  | none, some packet =>
    if ← packetIsEmpty packet then return false
    else
      set t { stack with inputPacket := some packet, outputPacket := none }
      return true

def popNoWaitFailed : PacketCode P T I overflow (Option I) := do
  putInputPacket cfg t
  if shouldYieldFromTask then return none
  if ← retrieveInputPacket cfg t then popInputPacket t
  else return none

def popFailed : PacketCode P T I overflow (Option I) := do
  putInputPacket cfg t
  let retrieved ← if shouldYieldFromTask then pure false else retrieveInputPacket cfg t
  if retrieved then popInputPacket t
  else
    let inputPacket ← getInputPacket cfg t
    let stack ← get t
    set t { stack with inputPacket := inputPacket }
    popInputPacket t

/-- A pop from the input packet, with what is done if nothing comes from it. -/
def popOr (failed : PacketCode P T I overflow (Option I)) : PacketCode P T I overflow (Option I) := do
  match ← popInputPacket t with
  | some result => return some result
  | none => failed

def pop : PacketCode P T I overflow (Option I) := popOr t (popFailed cfg t)

def popNoWait : PacketCode P T I overflow (Option I) := popOr t (popNoWaitFailed cfg t)

def popNoWaitFromCurrentInputPacket : PacketCode P T I overflow (Option I) :=
  popOr t do
    putInputPacket cfg t
    return none

def flushOutputPacket : PacketCode P T I overflow Unit := do
  let stack ← get t
  putIfPresent (putOutputPacket cfg t) stack.outputPacket
  set t { stack with outputPacket := none }

def flush : PacketCode P T I overflow Unit := do
  putInputPacket cfg t
  flushOutputPacket cfg t
  let stack ← get t
  putIfPresent (putDeferredPacket cfg t) stack.deferredPacket
  set t { stack with deferredPacket := none, attached := false }

/-- No packet is left of an earlier use. -/
def noPackets (stack : WorkStack P) : Bool :=
  stack.inputPacket.isNone && stack.outputPacket.isNone && stack.deferredPacket.isNone

def prepareForWork : PacketCode P T I overflow Unit :=
  atomic fun w =>
    let client := w.client t
    if client.workStack.attached then ((), w)
    else ((), { w.setClient t { client with
        workStack := { client.workStack with attached := true } } with
      assertionFailed := w.assertionFailed || !client.workStack.noPackets })

end WorkStack

namespace PacketCode

open WorkStack

variable (cfg : PacketConfig T) (t : T)

/-- A packet that the thread got itself. -/
def keep : Option P → PacketCode P T I overflow Unit
  | none => pure ()
  | some packet => atomic fun w => ((), w.setClient t { w.client t with
      packets := packet :: (w.client t).packets })

/-- Something is done with one of the thread's own packets. -/
def onPacket (index : ℕ) (code : P → PacketCode P T I overflow Unit) :
    PacketCode P T I overflow Unit := do
  let packets ← read fun w => (w.client t).packets
  match packets[index]? with
  | none => return ()
  | some packet => code packet

/-- One of the thread's own packets is put. -/
def putOwn (put : P → PacketCode P T I overflow Unit) (packet : P) :
    PacketCode P T I overflow Unit := do
  put packet
  atomic fun w => ((), w.setClient t { w.client t with
    packets := (w.client t).packets.erase packet })

/-- The code of an operation; the thread does not look at its result any more. -/
def ofOperation : WorkOperation I → PacketCode P T I overflow Unit
  | .prepareForWork => prepareForWork t
  | .push element => push cfg t element
  | .push2 element1 element2 => push2 cfg t element1 element2
  | .pushDefer element => pushDefer cfg t element
  | .pop => do
    let _ ← pop cfg t
  | .popNoWait => do
    let _ ← popNoWait cfg t
  | .popNoWaitFromCurrentInputPacket => do
    let _ ← popNoWaitFromCurrentInputPacket cfg t
  | .flushOutputPacket => flushOutputPacket cfg t
  | .flush => flush cfg t
  | .getInputPacket => do keep t (← getInputPacket cfg t)
  | .getInputPacketNoWait => do keep t (← getInputPacketNoWait cfg t)
  | .getOutputPacket => do keep t (← getOutputPacket cfg t)
  | .getDeferredPacket => do keep t (← getDeferredPacket cfg t)
  | .pushTo index items => onPacket t index fun packet => do
    let _ ← atomic (WorkPackets.tryPush packet items)
  | .popFrom index => onPacket t index fun packet => do
    let _ ← atomic (WorkPackets.packetPop packet)
  | .emptyToOverflow index => onPacket t index emptyToOverflow
  | .putPacket index => onPacket t index (putOwn t (putPacket cfg t))
  | .putOutputPacket index => onPacket t index (putOwn t (putOutputPacket cfg t))
  | .putDeferredPacket index => onPacket t index (putOwn t (putDeferredPacket cfg t))

/-- The thread is in an operation from here on, or in none. -/
def mark (operation : Option (WorkOperation I)) : PacketCode P T I overflow Unit :=
  atomic fun w => ((), w.setClient t { w.client t with operation := operation })

/-- One operation after the other. -/
def ofOperations : List (WorkOperation I) → PacketCode P T I overflow Unit
  | [] => pure ()
  | operation :: operations => do
    mark t (some operation)
    ofOperation cfg t operation
    mark t none
    ofOperations operations

end PacketCode

end OMR.GC
