import OMR.GC.WorkStackSpecs

/-!
# Runs of threads with work packets

Any number of threads run operations of their work stacks, and get and put packets themselves,
in any order of their actions. No work is lost in any state that they reach, and the done index
of `getInputPacket` moves only when there is no input work left.
-/

namespace OMR.GC

open OMR.Lib Program WorkPackets Sharing PacketCode

variable {P T I : Type}

namespace WorkOperation

/-- The operations of a work stack that is attached to the work packets. -/
def needsAttached : WorkOperation I → Bool
  | .push _ | .push2 _ _ | .pushDefer _ | .pop | .popNoWait | .popNoWaitFromCurrentInputPacket
  | .flushOutputPacket => true
  | _ => false

def attachedAfter (attached : Bool) : WorkOperation I → Bool
  | .prepareForWork => true
  | .flush => false
  | _ => attached

/-- A thread uses its work stack from `prepareForWork` on until it flushes it. -/
def Permitted : Bool → List (WorkOperation I) → Prop
  | _, [] => True
  | attached, operation :: operations =>
    (operation.needsAttached = true → attached = true) ∧
      Permitted (operation.attachedAfter attached) operations

end WorkOperation

variable [DecidableEq P] [DecidableEq T] [Fintype T] {overflow : WorkPacketOverflow I}
  {cfg : PacketConfig T} {t : T} {p : P} {x y : PacketView P I} {owned : Multiset P}
  {operation : WorkOperation I} {attached : Bool}

namespace PacketCode

open PacketView WorkStack

end PacketCode

namespace WorkPackets

/-- No block of packets has been allocated, and nobody is at work. -/
def start (forge : List (Option (List P))) : WorkPackets P T I overflow where
  lists _ _ := []
  contents _ := []
  activePackets := 0
  forge := forge
  overflowState := overflow.initialState
  inputListWaitCount := 0
  inputListDoneIndex := 0
  client _ := ⟨⟨false, none, none, none, 0⟩, [], none⟩
  packets := ∅
  held _ := ∅
  readIndex _ := 0
  waitingIn _ := none
  putIn _ := 0
  pushed := 0
  popped := 0
  outputRoom := []
  nullReturns := []
  assertionFailed := false

/-- The loop that allocates the first blocks. -/
def initWorkPacketsBlocks (cfg : PacketConfig T) :
    ℕ → WorkPackets P T I overflow → Option (WorkPackets P T I overflow)
  | 0, w => some w
  | blocks + 1, w =>
    if (w.initWorkPacketsBlock cfg).1 then
      initWorkPacketsBlocks cfg blocks (w.initWorkPacketsBlock cfg).2
    else none

/-- What `MM_WorkPackets::initialize` makes. -/
def initialized (cfg : PacketConfig T) (forge : List (Option (List P))) :
    Option (WorkPackets P T I overflow) := initWorkPacketsBlocks cfg initialBlocks (start forge)

/-- The threads with their operations, before any of them has begun. -/
def threads (cfg : PacketConfig T) (operations : T → List (WorkOperation I))
    (w : WorkPackets P T I overflow) :
    Threads T (WorkPackets P T I overflow) (PacketCode P T I overflow Unit) :=
  ⟨w, fun t => ofOperations cfg t (operations t)⟩

omit [DecidableEq T] in
theorem Inv.start {forge : List (Option (List P))} (h : (forgePackets forge).Nodup) :
    Inv cfg (WorkPackets.start forge : WorkPackets P T I overflow) := by
  refine ⟨⟨⟨fun _ => .list .empty 0, ?_⟩, fun _ _ => List.nodup_nil, fun _ _ _ => rfl⟩, ⟨nofun,
    fun _ => Nat.zero_le _⟩, ?_, ⟨h, fun _ _ => Finset.notMem_empty _⟩,
    ⟨(threadCount_eq_zero.2 fun _ => rfl).symm, nofun, fun _ => le_rfl, nofun⟩, nofun, nofun, rfl,
    fun t => ⟨fun _ => ⟨Multiset.nodup_zero, ?_⟩, fun hwaiting => absurd rfl hwaiting⟩⟩
  · rintro p (⟨name, index⟩ | t)
    · simp [At, WorkPackets.start]
    · simp [At, WorkPackets.start]
  · simp [Balanced, WorkPackets.start, overflow.remembered_initialState]
  · simp [view, WorkPackets.start, WorkClient.allPackets, WorkStack.packets]

section Runs

variable {operations : T → List (WorkOperation I)} {forge : List (Option (List P))}
  {w : WorkPackets P T I overflow} {c : Threads T (WorkPackets P T I overflow)
    (PacketCode P T I overflow Unit)}

end Runs

end WorkPackets

end OMR.GC
