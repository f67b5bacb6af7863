import OMR.GC.WorkPacketsCode

/-!
# The invariant of the work packets

Each packet is in one place, its fill level fits the list it is on, and no item is lost. The
waiting threads are counted, and what is on an input list was put there for the current done
index. A thread's view is its own part of the state with the contents of the packets it holds.
-/

namespace OMR.GC

open OMR.Lib

/-- Where a packet can be. -/
inductive PacketPlace (T : Type)
  | list (name : PacketListName) (index : ℕ)
  | thread (t : T)

/-- The fill level of the packets on a list. -/
def PacketListName.Fits : PacketListName → ℕ → Prop
  | .empty, level => level = 0
  | .full, level => level = slotsInPacket
  | .relativelyFull, level => slotsInPacket < level + fullPacketThreshold ∧ level < slotsInPacket
  | .nonEmpty, level => 0 < level ∧ level + fullPacketThreshold ≤ slotsInPacket
  | .deferred, level => level < slotsInPacket
  | .deferredFull, level => level = slotsInPacket

/-- The lists that input packets are taken from. -/
def PacketListName.isInput : PacketListName → Bool
  | .full | .relativelyFull | .nonEmpty => true
  | .empty | .deferred | .deferredFull => false

/-- The packets that a work stack has. -/
def WorkStack.packets {P : Type} (stack : WorkStack P) : Multiset P :=
  stack.inputPacket.toList + stack.outputPacket.toList + stack.deferredPacket.toList

/-- The packets that a thread has, in its work stack or otherwise. -/
def WorkClient.allPackets {P I : Type} (client : WorkClient P I) : Multiset P :=
  client.workStack.packets + client.packets

/-- What no other thread changes. -/
structure PacketView (P I : Type) where
  client : WorkClient P I
  /-- The contents of the packets that the thread holds. -/
  contents : P → Option (List I)
  readIndex : ℕ
  waitingIn : Option ℕ

namespace PacketView

variable {P I : Type}

/-- Exactly these packets are held. -/
structure Owns (x : PacketView P I) (packets : Multiset P) : Prop where
  nodup : packets.Nodup
  held : ∀ p, (x.contents p).isSome ↔ p ∈ packets

/-- The thread holds the packets that its stack has and those it got itself, and no others. -/
def Settled (x : PacketView P I) : Prop := x.Owns x.client.allPackets

/-- The thread is in `getInputPacket`, and the call has not found a packet. -/
structure WithoutInput (x : PacketView P I) : Prop where
  settled : x.Settled
  call : x.client.operation = some .getInputPacket ∨
    x.client.operation = some .pop ∧ x.client.workStack.inputPacket = none

/-- What a view satisfies at any time. -/
structure Local (x : PacketView P I) : Prop where
  idle : x.client.operation = none → x.Settled
  waiting : x.waitingIn ≠ none → x.WithoutInput

/-- The thread is in an operation, and does not wait. -/
structure Busy (x : PacketView P I) : Prop where
  operation : x.client.operation ≠ none
  awake : x.waitingIn = none

variable [DecidableEq P]

/-- A packet is taken, or its contents change. -/
def take (x : PacketView P I) (p : P) (items : List I) : PacketView P I :=
  { x with contents := Function.update x.contents p (some items) }

def drop (x : PacketView P I) (p : P) : PacketView P I :=
  { x with contents := Function.update x.contents p none }

theorem take_contents (x : PacketView P I) (p : P) (items : List I) :
    (x.take p items).contents p = some items := Function.update_self ..

theorem take_take (x : PacketView P I) (p : P) (items items' : List I) :
    (x.take p items).take p items' = x.take p items' :=
  congrArg (fun contents => PacketView.mk _ contents _ _) (Function.update_idem ..)

theorem Busy.take {x : PacketView P I} (h : x.Busy) (p : P) (items : List I) :
    (x.take p items).Busy := ⟨h.operation, h.awake⟩

theorem Busy.drop {x : PacketView P I} (h : x.Busy) (p : P) : (x.drop p).Busy :=
  ⟨h.operation, h.awake⟩

end PacketView

namespace WorkPackets

variable {P T I : Type} [DecidableEq P] [DecidableEq T] {overflow : WorkPacketOverflow I}

/-- A packet is in a place. -/
def At (lists : PacketListName → ℕ → List P) (held : T → Finset P) (p : P) :
    PacketPlace T → Prop
  | .list name index => p ∈ lists name index
  | .thread t => p ∈ held t

/-- Each packet is in exactly one place. -/
structure Arranged (sublistCount : ℕ) (lists : PacketListName → ℕ → List P)
    (held : T → Finset P) (packets : Finset P) : Prop where
  place : ∃ place : P → PacketPlace T, ∀ p x, At lists held p x ↔ p ∈ packets ∧ x = place p
  nodup : ∀ name index, (lists name index).Nodup
  outside : ∀ name index, sublistCount ≤ index → lists name index = []

/-- No packet has more items than slots, and those on a list have as many as fits the list. -/
structure Filled (lists : PacketListName → ℕ → List P) (contents : P → List I) : Prop where
  fits : ∀ name index, ∀ p ∈ lists name index, name.Fits (contents p).length
  length_le : ∀ p, (contents p).length ≤ slotsInPacket

/-- The items pushed are those popped, those in packets and those that the overflow handler
remembers. -/
def Balanced (w : WorkPackets P T I overflow) : Prop :=
  w.pushed = w.popped + ∑ p ∈ w.packets, (w.contents p : Multiset I) +
    overflow.remembered w.overflowState

/-- The packets of the blocks that the forge still has. -/
def forgePackets (forge : List (Option (List P))) : List P := forge.flatMap fun block => block.getD []

/-- The forge's blocks do not overlap, and have not been used. -/
structure Fresh (forge : List (Option (List P))) (packets : Finset P) : Prop where
  nodup : (forgePackets forge).Nodup
  unused : ∀ p ∈ forgePackets forge, p ∉ packets

/-- The wait count is the number of threads that wait for the current done index. -/
structure Counted [Fintype T] (waitCount doneIndex : ℕ) (readIndex : T → ℕ)
    (waitingIn : T → Option ℕ) (nullReturns : List (ℕ × ℕ)) : Prop where
  count : waitCount = threadCount (fun d => d == some doneIndex) waitingIn
  waitingIn_le : ∀ t d, waitingIn t = some d → d ≤ doneIndex
  readIndex_le : ∀ t, readIndex t ≤ doneIndex
  nullReturns_lt : ∀ r ∈ nullReturns, r.1 < r.2

/-- What is on an input list was put there for the current done index. -/
def Stamped (lists : PacketListName → ℕ → List P) (putIn : P → ℕ) (doneIndex : ℕ) : Prop :=
  ∀ name index, name.isInput → ∀ p ∈ lists name index, putIn p = doneIndex

/-- The view of a thread. -/
def view (t : T) (w : WorkPackets P T I overflow) : PacketView P I :=
  ⟨w.client t, fun p => if p ∈ w.held t then some (w.contents p) else none, w.readIndex t,
    w.waitingIn t⟩

structure Inv [Fintype T] (cfg : PacketConfig T) (w : WorkPackets P T I overflow) : Prop where
  arranged : Arranged cfg.sublistCount w.lists w.held w.packets
  filled : Filled w.lists w.contents
  balanced : w.Balanced
  fresh : Fresh w.forge w.packets
  counted : Counted w.inputListWaitCount w.inputListDoneIndex w.readIndex w.waitingIn w.nullReturns
  stamped : Stamped w.lists w.putIn w.inputListDoneIndex
  outputRoom : ∀ room ∈ w.outputRoom, 2 ≤ room
  asserted : w.assertionFailed = false
  locals : ∀ t, (view t w).Local

/-- The done index only moves when all threads wait, or are about to, and no input is left. -/
def DeclaresSafely (cfg : PacketConfig T) (w w' : WorkPackets P T I overflow) : Prop :=
  w'.inputListDoneIndex ≠ w.inputListDoneIndex →
    w'.inputListDoneIndex = w.inputListDoneIndex + 1 ∧ w.inputPacketAvailable cfg = false ∧
      ∃ declarer, w.readIndex declarer = w.inputListDoneIndex ∧ ∀ t, (view t w).WithoutInput ∧
        (t ≠ declarer → w.waitingIn t = some w.inputListDoneIndex)

/-- The work packets as shared by the threads. -/
def sharing (overflow : WorkPacketOverflow I) [Fintype T] (cfg : PacketConfig T) :
    Sharing (WorkPackets P T I overflow) (PacketView P I) T :=
  ⟨Inv cfg, view, DeclaresSafely cfg⟩

section Places

variable {sublistCount : ℕ} {lists lists' : PacketListName → ℕ → List P}
  {held held' : T → Finset P} {packets : Finset P} {p q : P} {t t' : T} {name : PacketListName}
  {index : ℕ}

omit [DecidableEq P] [DecidableEq T] in
theorem Arranged.unique (h : Arranged sublistCount lists held packets) {x y : PacketPlace T}
    (hx : At lists held p x) (hy : At lists held p y) : x = y := by
  obtain ⟨place, hplace⟩ := h.place
  exact ((hplace p x).1 hx).2.trans ((hplace p y).1 hy).2.symm

omit [DecidableEq P] [DecidableEq T] in
theorem Arranged.mem_packets (h : Arranged sublistCount lists held packets) {x : PacketPlace T}
    (hx : At lists held p x) : p ∈ packets := by
  obtain ⟨place, hplace⟩ := h.place
  exact ((hplace p x).1 hx).1

omit [DecidableEq P] [DecidableEq T] in
/-- A packet is held by one thread only. -/
theorem Arranged.held_unique (h : Arranged sublistCount lists held packets) (hp : p ∈ held t)
    (hp' : p ∈ held t') : t' = t :=
  PacketPlace.thread.inj (h.unique (x := .thread t') (y := .thread t) hp' hp)

omit [DecidableEq P] [DecidableEq T] in
/-- A packet on a list is not held. -/
theorem Arranged.not_held (h : Arranged sublistCount lists held packets)
    (hp : p ∈ lists name index) : p ∉ held t := by
  intro hheld
  cases h.unique (x := .list name index) (y := .thread t) hp hheld

omit [DecidableEq T] in
/-- One packet gets to a new place. -/
theorem Arranged.move (h : Arranged sublistCount lists held packets) (hp : p ∈ packets)
    {x : PacketPlace T} (hself : ∀ y, At lists' held' p y ↔ y = x)
    (hother : ∀ q ≠ p, ∀ y, At lists' held' q y ↔ At lists held q y) :
    ∃ place : P → PacketPlace T, ∀ q y, At lists' held' q y ↔ q ∈ packets ∧ y = place q := by
  obtain ⟨place, hplace⟩ := h.place
  refine ⟨Function.update place p x, fun q y => ?_⟩
  by_cases hq : q = p
  · subst hq
    rw [Function.update_self, hself]
    exact (and_iff_right hp).symm
  · rw [Function.update_of_ne hq, hother q hq, hplace]

omit [DecidableEq P] in
/-- A sublist is replaced. -/
theorem updateSublist_apply (lists : PacketListName → ℕ → List P) (name name' : PacketListName)
    (index index' : ℕ) (l : List P) :
    Function.update lists name (Function.update (lists name) index l) name' index' =
      if name' = name ∧ index' = index then l else lists name' index' := by
  by_cases hname : name' = name
  · subst hname
    by_cases hindex : index' = index
    · subst hindex
      simp
    · simp [hindex]
  · simp [hname]

omit [DecidableEq P] in
/-- What is on the lists after a sublist has been replaced. -/
theorem mem_updateSublist {l : List P} {name' : PacketListName} {index' : ℕ} :
    q ∈ Function.update lists name (Function.update (lists name) index l) name' index' ↔
      if name' = name ∧ index' = index then q ∈ l else q ∈ lists name' index' := by
  rw [updateSublist_apply]
  split
  · exact Iff.rfl
  · exact Iff.rfl

/-- The first packet of a sublist is taken by a thread. -/
theorem Arranged.pop (h : Arranged sublistCount lists held packets) {rest : List P}
    (hlist : lists name index = p :: rest) :
    Arranged sublistCount (Function.update lists name (Function.update (lists name) index rest))
      (Function.update held t (insert p (held t))) packets := by
  have hnodup := h.nodup name index
  rw [hlist, List.nodup_cons] at hnodup
  have hp : p ∈ lists name index := hlist ▸ List.mem_cons_self
  refine ⟨h.move (h.mem_packets (x := .list name index) hp) (x := .thread t) ?_ ?_, ?_, ?_⟩
  · rintro (⟨name', index'⟩ | t')
    · rw [At, mem_updateSublist]
      refine iff_of_false ?_ nofun
      split
      · exact hnodup.1
      · intro hmem
        have := h.unique (x := .list name' index') (y := .list name index) hmem hp
        simp_all
    · rw [At, Function.update_apply]
      constructor
      · split
        · rename_i ht
          exact fun _ => congrArg _ ht
        · exact fun hheld => absurd hheld (h.not_held hp)
      · rintro ⟨⟩
        simp
  · rintro q hq (⟨name', index'⟩ | t')
    · rw [At, mem_updateSublist]
      split
      · rename_i heq
        rw [At, heq.1, heq.2, hlist, List.mem_cons, or_iff_right hq]
      · exact Iff.rfl
    · rw [At, At, Function.update_apply]
      split
      · rename_i ht
        rw [ht, Finset.mem_insert, or_iff_right hq]
      · exact Iff.rfl
  · intro name' index'
    rw [updateSublist_apply]
    split
    · exact hnodup.2
    · exact h.nodup name' index'
  · intro name' index' hindex'
    rw [updateSublist_apply]
    split
    · rename_i heq
      rw [h.outside name index (heq.2 ▸ hindex')] at hlist
      cases hlist
    · exact h.outside name' index' hindex'

/-- A packet that a thread holds is put on a sublist. -/
theorem Arranged.push (h : Arranged sublistCount lists held packets) (hp : p ∈ held t)
    (hindex : index < sublistCount) :
    Arranged sublistCount
      (Function.update lists name (Function.update (lists name) index (p :: lists name index)))
      (Function.update held t ((held t).erase p)) packets := by
  have hlists : ∀ name' index', p ∉ lists name' index' := fun name' index' hmem =>
    h.not_held hmem hp
  refine ⟨h.move (h.mem_packets (x := .thread t) hp) (x := .list name index) ?_ ?_, ?_, ?_⟩
  · rintro (⟨name', index'⟩ | t')
    · rw [At, mem_updateSublist]
      split
      · rename_i heq
        simp [heq.1, heq.2]
      · rename_i hne
        refine iff_of_false (hlists _ _) fun heq => hne ?_
        cases heq
        exact ⟨rfl, rfl⟩
    · rw [At, Function.update_apply]
      refine iff_of_false ?_ nofun
      split
      · simp
      · rename_i hne
        exact fun hp' => hne (h.held_unique hp hp')
  · rintro q hq (⟨name', index'⟩ | t')
    · rw [At, mem_updateSublist]
      split
      · rename_i heq
        rw [At, heq.1, heq.2, List.mem_cons, or_iff_right hq]
      · exact Iff.rfl
    · rw [At, At, Function.update_apply]
      split
      · rename_i ht
        rw [ht, Finset.mem_erase, and_iff_right hq]
      · exact Iff.rfl
  · intro name' index'
    rw [updateSublist_apply]
    split
    · exact List.nodup_cons.2 ⟨hlists _ _, h.nodup _ _⟩
    · exact h.nodup name' index'
  · intro name' index' hindex'
    rw [updateSublist_apply]
    split
    · rename_i heq
      omega
    · exact h.outside name' index' hindex'

end Places

section Contents

variable {lists lists' : PacketListName → ℕ → List P} {contents contents' : P → List I}
  {packets : Finset P} {p : P} {name : PacketListName} {index : ℕ} {items : List I}

omit [DecidableEq P] in
theorem Filled.remove (h : Filled lists contents) {rest : List P}
    (hlist : lists name index = p :: rest) :
    Filled (Function.update lists name (Function.update (lists name) index rest)) contents := by
  refine ⟨fun name' index' q hq => ?_, h.length_le⟩
  rw [mem_updateSublist] at hq
  split at hq
  · rename_i heq
    rw [heq.1]
    exact h.fits name index q (hlist ▸ List.mem_cons_of_mem _ hq)
  · exact h.fits name' index' q hq

omit [DecidableEq P] in
theorem Filled.add (h : Filled lists contents) {l : List P}
    (hl : ∀ p ∈ l, name.Fits (contents p).length) :
    Filled (Function.update lists name (Function.update (lists name) index (l ++ lists name index)))
      contents := by
  refine ⟨fun name' index' q hq => ?_, h.length_le⟩
  rw [mem_updateSublist] at hq
  split at hq
  · rename_i heq
    rw [heq.1]
    rcases List.mem_append.1 hq with hq | hq
    · exact hl q hq
    · exact h.fits name index q hq
  · exact h.fits name' index' q hq

omit [DecidableEq P] in
/-- Packets that are on no list change their contents. -/
theorem Filled.setContents (h : Filled lists contents)
    (hlists : ∀ q, contents' q = contents q ∨ ∀ name index, q ∉ lists name index)
    (hlength : ∀ q, (contents' q).length ≤ slotsInPacket) : Filled lists contents' := by
  refine ⟨fun name index q hq => ?_, hlength⟩
  rcases hlists q with heq | hnot
  · rw [heq]
    exact h.fits name index q hq
  · exact absurd hq (hnot name index)

end Contents

end WorkPackets

end OMR.GC
