import OMR.Lib.LinkedList

/-!
# Packet lists

`MM_PacketList`: a list of work packets that is split into several doubly linked
sublists. Each operation holds the locks it needs, so it is one step here. A packet is
the same packet as long as it is used, and its links are its own.
-/

namespace OMR.GC

open OMR.Lib

/-- `MM_PacketList::PacketSublist`. -/
structure PacketSublist (ι : Type*) where
  head : Option ι
  tail : Option ι

/-- A packet list together with the links of all packets. -/
structure PacketList (ι : Type*) where
  /-- `_next` of each packet. -/
  next : ι → Option ι
  /-- `_previous` of each packet. -/
  previous : ι → Option ι
  /-- `_sublistIndex` of each packet. -/
  sublistIndex : ι → ℕ
  sublistCount : ℕ
  sublists : ℕ → PacketSublist ι
  /-- `_count`. -/
  count : ℕ

namespace PacketList

variable {ι : Type*} [DecidableEq ι]

/-- `initialize`, for packets with any links. -/
def initialized (next previous : ι → Option ι) (sublistIndex : ι → ℕ) (sublistCount : ℕ) :
    PacketList ι :=
  ⟨next, previous, sublistIndex, sublistCount, fun _ => ⟨none, none⟩, 0⟩

/-- `getSublistIndex`. -/
def getSublistIndex (m : PacketList ι) (environmentId : ℕ) : ℕ := environmentId % m.sublistCount

def push (m : PacketList ι) (environmentId : ℕ) (packet : ι) : PacketList ι :=
  let index := m.getSublistIndex environmentId
  let list := m.sublists index
  let m := { m with
    next := Function.update m.next packet list.head
    previous := Function.update m.previous packet none
    sublistIndex := Function.update m.sublistIndex packet index
    count := m.count + 1 }
  match list.head with
  | none => { m with sublists := Function.update m.sublists index ⟨some packet, some packet⟩ }
  | some head => { m with
      previous := Function.update m.previous head (some packet)
      sublists := Function.update m.sublists index ⟨some packet, list.tail⟩ }

/-- The loop of `pushList` over the packets from `current` on. -/
def setSublistIndexes (m : PacketList ι) : ℕ → Option ι → (ι → ℕ) → ι → ℕ
  | 0, _, sublistIndex => sublistIndex
  | _ + 1, none, sublistIndex => sublistIndex
  | i + 1, some current, sublistIndex =>
    m.setSublistIndexes i (m.next current) (Function.update sublistIndex current 0)

/-- The part of `pushList` that makes `tail` the packet before the old head. -/
def linkFirstList (m : PacketList ι) (head tail : ι) : PacketList ι :=
  match (m.sublists 0).head with
  | none => { m with sublists := Function.update m.sublists 0 ⟨some head, some tail⟩ }
  | some oldHead => { m with
      previous := Function.update m.previous oldHead (some tail)
      sublists := Function.update m.sublists 0 ⟨some head, (m.sublists 0).tail⟩ }

def pushList (m : PacketList ι) (head tail : ι) (count : ℕ) : PacketList ι :=
  let oldHead := (m.sublists 0).head
  let m := { m.linkFirstList head tail with
    next := Function.update m.next tail oldHead
    count := m.count + count }
  { m with sublistIndex := m.setSublistIndexes count (some head) m.sublistIndex }

/-- The part of `pop` that takes the first packet of the sublist at `index`. -/
def popSublist (m : PacketList ι) (index : ℕ) (packet : ι) : PacketList ι :=
  let m := { m with count := m.count - 1 }
  match m.next packet with
  | none => { m with sublists := Function.update m.sublists index ⟨none, none⟩ }
  | some head => { m with
      previous := Function.update m.previous head none
      sublists := Function.update m.sublists index ⟨some head, (m.sublists index).tail⟩ }

/-- The loop of `pop`, with the sublists it has left to look at. -/
def popFrom (m : PacketList ι) : ℕ → ℕ → Option ι × PacketList ι
  | 0, _ => (none, m)
  | left + 1, index =>
    match (m.sublists index).head with
    | some packet => (some packet, m.popSublist index packet)
    | none => m.popFrom left ((index + 1) % m.sublistCount)

def pop (m : PacketList ι) (environmentId : ℕ) : Option ι × PacketList ι :=
  m.popFrom m.sublistCount (m.getSublistIndex environmentId)

/-- What `popList` gives back. -/
structure PoppedList (ι : Type*) where
  didPop : Bool
  head : Option ι
  tail : Option ι
  count : ℕ

/-- One round of the loop of `popList`, over the sublist at `index`. -/
def popListStep (s : PacketList ι × PoppedList ι) (index : ℕ) : PacketList ι × PoppedList ι :=
  let (m, popped) := s
  let list := m.sublists index
  match list.head with
  | none => s
  | some head =>
    let next := match popped.head, popped.tail with
      | some _, some tail => Function.update m.next tail (some head)
      | _, _ => m.next
    ({ m with next := next, sublists := Function.update m.sublists index ⟨none, none⟩ },
      { popped with
        didPop := true
        head := match popped.head with
          | none => some head
          | some first => some first
        tail := list.tail })

def popList (m : PacketList ι) : PoppedList ι × PacketList ι :=
  let (m', popped) := (List.range m.sublistCount).foldl popListStep (m, ⟨false, none, none, 0⟩)
  ({ popped with count := m'.count }, { m' with count := 0 })

def remove (m : PacketList ι) (packetToRemove : ι) : PacketList ι :=
  let index := m.sublistIndex packetToRemove
  let previous := m.previous packetToRemove
  let next := m.next packetToRemove
  let m := match previous with
    | none => { m with
        sublists := Function.update m.sublists index ⟨next, (m.sublists index).tail⟩ }
    | some previous => { m with next := Function.update m.next previous next }
  let m := match next with
    | none => { m with
        sublists := Function.update m.sublists index ⟨(m.sublists index).head, previous⟩ }
    | some next => { m with previous := Function.update m.previous next previous }
  { m with count := m.count - 1 }

def getHead (m : PacketList ι) : Option ι × PacketList ι :=
  match m.popList with
  | (⟨true, some head, some tail, count⟩, m') =>
    let m' := m'.pushList head tail count
    ((m'.sublists 0).head, m')
  | (_, m') => (none, m')

end PacketList

end OMR.GC
