import OMR.GC.WorkPacketsSpecs

/-!
# Specifications of the code of `MM_WorkStack`

In between two functions a thread holds exactly the packets of its stack and those that it got
itself. Each function of the stack exchanges some of them and ends like that again.
-/

namespace OMR.GC

open OMR.Lib Program WorkPackets Sharing PacketCode

variable {P T I : Type} [DecidableEq P] [DecidableEq T] [Fintype T]
  {overflow : WorkPacketOverflow I} {cfg : PacketConfig T} {t : T} {p : P} {items : List I}
  {x y : PacketView P I} {owned owned' : Multiset P} {operation : WorkOperation I}

namespace PacketView

omit [DecidableEq P] in
theorem Owns.exists_contents (h : x.Owns owned) (hp : p ∈ owned) :
    ∃ items, x.contents p = some items :=
  Option.isSome_iff_exists.1 ((h.held p).2 hp)

theorem Owns.take (h : x.Owns owned) (hp : x.contents p = none) (items : List I) :
    (x.take p items).Owns (p ::ₘ owned) := by
  have hnew : p ∉ owned := fun hmem => by
    obtain ⟨items', hitems'⟩ := h.exists_contents hmem
    cases hp.symm.trans hitems'
  refine ⟨Multiset.nodup_cons.2 ⟨hnew, h.nodup⟩, fun q => ?_⟩
  simp only [PacketView.take, Function.update_apply, Multiset.mem_cons, ← h.held]
  grind

/-- The contents of a packet that is held change. -/
theorem Owns.store (h : x.Owns owned) (hp : p ∈ owned) (items : List I) :
    (x.take p items).Owns owned := by
  refine ⟨h.nodup, fun q => ?_⟩
  have hheld := h.held q
  simp only [PacketView.take, Function.update_apply]
  grind

theorem Owns.drop (h : x.Owns (p ::ₘ owned)) : (x.drop p).Owns owned := by
  obtain ⟨hp, hnodup⟩ := Multiset.nodup_cons.1 h.nodup
  refine ⟨hnodup, fun q => ?_⟩
  have hheld := h.held q
  rw [Multiset.mem_cons] at hheld
  simp only [PacketView.drop, Function.update_apply]
  grind

/-- The thread is in an operation and owns these packets. -/
structure Ready (operation : WorkOperation I) (owned : Multiset P) (x : PacketView P I) :
    Prop where
  operation : x.client.operation = some operation
  awake : x.waitingIn = none
  owns : x.Owns owned

namespace Ready

omit [DecidableEq P] in
theorem busy (h : x.Ready operation owned) : x.Busy :=
  ⟨h.operation ▸ Option.some_ne_none _, h.awake⟩

omit [DecidableEq P] in
theorem of_eq (h : x.Ready operation owned) (heq : owned = owned') : x.Ready operation owned' :=
  heq ▸ h

theorem take (h : x.Ready operation owned) (hp : x.contents p = none) (items : List I) :
    (x.take p items).Ready operation (p ::ₘ owned) :=
  ⟨h.operation, h.awake, h.owns.take hp items⟩

theorem store (h : x.Ready operation owned) (hp : p ∈ owned) (items : List I) :
    (x.take p items).Ready operation owned :=
  ⟨h.operation, h.awake, h.owns.store hp items⟩

theorem drop (h : x.Ready operation (p ::ₘ owned)) : (x.drop p).Ready operation owned :=
  ⟨h.operation, h.awake, h.owns.drop⟩

omit [DecidableEq P] in
theorem setClient (h : x.Ready operation owned) (client : WorkClient P I)
    (hclient : client.operation = x.client.operation) :
    PacketView.Ready operation owned { x with client := client } :=
  ⟨hclient.trans h.operation, h.awake, ⟨h.owns.nodup, h.owns.held⟩⟩

end Ready

/-- The thread is in an operation and holds what its stack has and what it got itself. -/
def Whole (operation : WorkOperation I) (x : PacketView P I) : Prop :=
  x.Ready operation x.client.allPackets

end PacketView

namespace WorkStack

open PacketView

section

variable {Q : Unit → PacketView P I → Prop}

end

/-- The thread owns these packets now; its own part is as before. -/
def Keeps (operation : WorkOperation I) (owned : Multiset P) (x y : PacketView P I) : Prop :=
  y.Ready operation owned ∧ y.client = x.client

/-- The stack of the thread has been replaced. -/
def Sets (operation : WorkOperation I) (x : PacketView P I) (stack : WorkStack P)
    (y : PacketView P I) : Prop :=
  y.Whole operation ∧ y.client = { x.client with workStack := stack }

end WorkStack

end OMR.GC
