import OMR.GC.ForwardedHeader
import OMR.Lib.Interleaving

/-!
# The race to forward an object

Threads that found the object not forwarded each make one attempt, with a
compare-and-swap on its header, and the losers read the header again. The winner with
the being-copied hint takes the hint out later, with a read and a write of the slot.
-/

namespace OMR.GC

open OMR.Lib

namespace ForwardedHeader

variable {b : HeaderBuild}

/-- The call that a thread makes. -/
inductive Attempt
  | setForwardedObject (destinationObjectPtr : BitVec 64)
  | setForwardedObjectWithBeingCopiedHint (destinationObjectPtr : BitVec 64)
  | setSelfForwardedObject
deriving DecidableEq

namespace Attempt

/-- Where the call wants to forward the object to, if it is not to itself. -/
def destination : Attempt → Option (BitVec 64)
  | setForwardedObject d => some d
  | setForwardedObjectWithBeingCopiedHint d => some d
  | setSelfForwardedObject => none

/-- The compare-and-swap of the call. -/
def cas (h : ForwardedHeader b) (header : MutableHeaderFields b) :
    Attempt → Option (MutableHeaderFields b)
  | setForwardedObject d => h.casForwarded header d forwardedTag
  | setForwardedObjectWithBeingCopiedHint d =>
    h.casForwarded header d (forwardedTag ||| (beingCopiedHint b).setWidth 64)
  | setSelfForwardedObject => h.casSelfForwarded header

/-- What the call returns after its compare-and-swap succeeded. -/
def won (h : ForwardedHeader b) : Attempt → BitVec 64
  | setForwardedObject d => d
  | setForwardedObjectWithBeingCopiedHint d => d
  | setSelfForwardedObject => h.objectPtr

/-- What the call returns after it failed and has read the header again. -/
def lost (reading : ForwardedHeader b) : Attempt → BitVec 64
  | setForwardedObject _ => reading.getForwardedObject
  | setForwardedObjectWithBeingCopiedHint _ => reading.getForwardedObject
  | setSelfForwardedObject => reading.getNonStrictForwardedObject

end Attempt

/-- How far a thread has got. -/
inductive Phase (b : HeaderBuild)
  | ready
  | casFailed
  | returned (won : Bool) (result : BitVec 64)
  /-- In `commitFixup`, between the read of the slot and the write of it. -/
  | clearingHint (result : BitVec 64) (read : b.Slot)
  | hintCleared (result : BitVec 64)

namespace Phase

/-- The thread's compare-and-swap has succeeded. -/
def Won : Phase b → Prop
  | ready => False
  | casFailed => False
  | returned won _ => won = true
  | clearingHint _ _ => True
  | hintCleared _ => True

/-- What the thread's call has returned. -/
def result : Phase b → Option (BitVec 64)
  | ready => none
  | casFailed => none
  | returned _ r => some r
  | clearingHint r _ => some r
  | hintCleared r => some r

end Phase

/-- The header that the threads race for and how far each has got. -/
abbrev Race (ι : Type*) (b : HeaderBuild) := Threads ι (MutableHeaderFields b) (Phase b)

/-- One atomic step of a thread that makes the call `a` on the header that it has
preserved in `h`. -/
inductive AttemptStep (h : ForwardedHeader b) (a : Attempt) :
    MutableHeaderFields b → Phase b → MutableHeaderFields b → Phase b → Prop
  | win {header header' : MutableHeaderFields b} (hcas : a.cas h header = some header') :
      AttemptStep h a header .ready header' (.returned true (a.won h))
  | lose {header : MutableHeaderFields b} (hcas : a.cas h header = none) :
      AttemptStep h a header .ready header .casFailed
  | reread {header : MutableHeaderFields b} :
      AttemptStep h a header .casFailed header (.returned false (a.lost ⟨h.objectPtr, header⟩))
  | readHint {header : MutableHeaderFields b} {d r : BitVec 64}
      (ha : a = .setForwardedObjectWithBeingCopiedHint d) :
      AttemptStep h a header (.returned true r) header (.clearingHint r header.slot)
  | writeHint {header : MutableHeaderFields b} {r : BitVec 64} {read : b.Slot} :
      AttemptStep h a header (.clearingHint r read)
        { header with slot := read &&& ~~~beingCopiedHint b } (.hintCleared r)

/-- The steps of all threads, each with its own call and all with the same header read. -/
def raceStep {ι : Type*} (h : ForwardedHeader b) (calls : ι → Attempt) (i : ι) :
    MutableHeaderFields b → Phase b → MutableHeaderFields b → Phase b → Prop :=
  AttemptStep h (calls i)

/-- The race before anyone has tried. -/
def Race.start {ι : Type*} (h : ForwardedHeader b) : Race ι b := ⟨h.preserved, fun _ => .ready⟩

namespace Attempt

/-- The header as the call `a` leaves it when it wins. -/
def Installed (h : ForwardedHeader b) (header : MutableHeaderFields b) (a : Attempt) : Prop :=
  match a.destination with
  | some d => ∃ tag, IsForwardingTag tag ∧ header = forwardedFields b d tag
  | none => header = h.selfForwardedFields

/-- What the call `a` returns in a race that the call `winner` has won. -/
def returns (h : ForwardedHeader b) (winner a : Attempt) : BitVec 64 :=
  match winner.destination, a.destination with
  | some d, _ => d
  | none, none => h.objectPtr
  | none, some _ => 0

theorem Installed.destination_some {h : ForwardedHeader b} {header : MutableHeaderFields b}
    {a : Attempt} {d : BitVec 64} (ha : a.destination = some d) (hi : a.Installed h header) :
    ∃ tag, IsForwardingTag tag ∧ header = forwardedFields b d tag := by
  rwa [Installed, ha] at hi

theorem Installed.destination_none {h : ForwardedHeader b} {header : MutableHeaderFields b}
    {a : Attempt} (ha : a.destination = none) (hi : a.Installed h header) :
    header = h.selfForwardedFields := by
  rwa [Installed, ha] at hi

theorem isForwardingTag_hint (b : HeaderBuild) :
    IsForwardingTag (forwardedTag ||| (beingCopiedHint b).setWidth 64) := by
  cases b <;> exact .inr rfl

theorem casForwarded_preserved (h : ForwardedHeader b) (d : BitVec 64) {tag : BitVec 64}
    (htag : IsForwardingTag tag) :
    h.casForwarded h.preserved d tag = some (forwardedFields b d tag) := by
  rw [casForwarded, if_pos rfl, ofWord_forwardedWord htag]

/-- The first compare-and-swap succeeds. -/
theorem cas_preserved (h : ForwardedHeader b) (a : Attempt) :
    ∃ header', a.cas h h.preserved = some header' ∧ a.Installed h header' := by
  cases a with
  | setForwardedObject d =>
    exact ⟨_, casForwarded_preserved h d (.inl rfl), _, .inl rfl, rfl⟩
  | setForwardedObjectWithBeingCopiedHint d =>
    have htag := isForwardingTag_hint b
    exact ⟨_, casForwarded_preserved h d htag, _, htag, rfl⟩
  | setSelfForwardedObject => exact ⟨_, if_pos rfl, rfl⟩

variable {h : ForwardedHeader b} {header : MutableHeaderFields b}

theorem tagBits_of_installed (hclear : TagsClear h.preserved) {winner : Attempt}
    (haligned : ∀ d, winner.destination = some d → tagBits d = 0)
    (hi : winner.Installed h header) : tagBits header.slot ≠ 0 := by
  cases hdest : winner.destination with
  | some d =>
    obtain ⟨tag, htag, rfl⟩ := hi.destination_some hdest
    rw [tagBits_forwardedFields (haligned d hdest)]
    rcases htag with rfl | rfl <;> decide
  | none =>
    rw [hi.destination_none hdest, tagBits_selfForwardedFields hclear]
    decide

/-- Every later compare-and-swap fails. -/
theorem cas_of_installed (hclear : TagsClear h.preserved) {winner : Attempt}
    (haligned : ∀ d, winner.destination = some d → tagBits d = 0)
    (hi : winner.Installed h header) (a : Attempt) : a.cas h header = none := by
  have hslot : header.slot ≠ h.preserved.slot := by
    intro heq
    apply tagBits_of_installed hclear haligned hi
    rw [heq]
    exact hclear
  have hword : header.word ≠ h.preserved.word := fun heq =>
    hslot (congrArg _ (MutableHeaderFields.word_injective heq))
  cases a with
  | setForwardedObject d => exact if_neg hword
  | setForwardedObjectWithBeingCopiedHint d => exact if_neg hword
  | setSelfForwardedObject => exact if_neg hslot

/-- A call that has lost finds out who won from whatever header it reads afterwards. -/
theorem lost_of_installed (hclear : TagsClear h.preserved) {winner : Attempt}
    (haligned : ∀ d, winner.destination = some d → tagBits d = 0)
    (hi : winner.Installed h header) (a : Attempt) :
    a.lost ⟨h.objectPtr, header⟩ = winner.returns h a := by
  cases hdest : winner.destination with
  | some d =>
    obtain ⟨tag, htag, rfl⟩ := hi.destination_some hdest
    obtain ⟨_, _, _, hget, hnonStrict⟩ :=
      reading_forwardedFields (b := b) h.objectPtr (haligned d hdest) htag
    rw [returns, hdest]
    cases a with
    | setForwardedObject _ => exact hget
    | setForwardedObjectWithBeingCopiedHint _ => exact hget
    | setSelfForwardedObject => exact hnonStrict
  | none =>
    obtain rfl := hi.destination_none hdest
    obtain ⟨_, _, _, hget, hnonStrict⟩ := reading_selfForwardedFields hclear
    rw [returns, hdest]
    cases a with
    | setForwardedObject _ => exact hget
    | setForwardedObjectWithBeingCopiedHint _ => exact hget
    | setSelfForwardedObject => exact hnonStrict

theorem won_eq_returns (h : ForwardedHeader b) (a : Attempt) : a.won h = a.returns h a := by
  cases a <;> rfl

end Attempt

section Run

variable {ι : Type*} {h : ForwardedHeader b} {calls : ι → Attempt}

/-- What thread `i` has done is right for a race that thread `w` has won. -/
structure Agrees (h : ForwardedHeader b) (calls : ι → Attempt) (w i : ι) (p : Phase b) :
    Prop where
  won_iff : p.Won ↔ i = w
  result : ∀ r, p.result = some r → r = (calls w).returns h (calls i)
  read : ∀ r read, p = .clearingHint r read →
    ∃ d tag, (calls w).destination = some d ∧ IsForwardingTag tag ∧
      read = (forwardedFields b d tag).slot

/-- The race is not decided yet, or one thread has won it and everything agrees with that. -/
def Race.Inv (h : ForwardedHeader b) (calls : ι → Attempt) (s : Race ι b) : Prop :=
  ((∀ i, s.thread i = .ready) ∧ s.shared = h.preserved) ∨
    ∃ w, (calls w).Installed h s.shared ∧ ∀ i, Agrees h calls w i (s.thread i)

theorem agrees_ready {w i : ι} (hi : i ≠ w) : Agrees h calls w i .ready where
  won_iff := ⟨False.elim, hi⟩
  result := by simp [Phase.result]
  read := by simp

theorem agrees_won (w : ι) : Agrees h calls w w (.returned true ((calls w).won h)) where
  won_iff := ⟨fun _ => rfl, fun _ => rfl⟩
  result r hr := by
    rw [← Option.some.inj hr]
    exact Attempt.won_eq_returns h (calls w)
  read := by simp

variable [DecidableEq ι]

/-- A step of thread `i` that leaves it in agreement does so for the whole race. -/
theorem agrees_after {s : Race ι b} {w i : ι} {header' : MutableHeaderFields b} {p' : Phase b}
    (hs : ∀ j, Agrees h calls w j (s.thread j)) (hp : Agrees h calls w i p') (j : ι) :
    Agrees h calls w j ((s.after i header' p').thread j) := by
  by_cases hj : j = i
  · subst hj
    rwa [Threads.after_thread_self]
  · rw [Threads.after_thread_of_ne s hj]
    exact hs j

theorem Race.Inv.step {s : Race ι b} {i : ι} {header' : MutableHeaderFields b} {p' : Phase b}
    (hclear : TagsClear h.preserved)
    (haligned : ∀ i d, (calls i).destination = some d → tagBits d = 0) (hs : s.Inv h calls)
    (hstep : raceStep h calls i s.shared (s.thread i) header' p') :
    Race.Inv h calls (s.after i header' p') := by
  rcases hs with ⟨hready, hheader⟩ | ⟨w, hinstalled, hagree⟩
  · -- nobody has tried, so the step is a compare-and-swap, and it succeeds
    obtain ⟨header₁, hcas, hinstalled⟩ := (calls i).cas_preserved h
    rw [← hheader] at hcas
    refine .inr ⟨i, ?_⟩
    rw [hready i] at hstep
    cases hstep with
    | win hcas' =>
      obtain rfl := Option.some.inj (hcas.symm.trans hcas')
      refine ⟨hinstalled, fun j => ?_⟩
      by_cases hj : j = i
      · subst hj
        rw [Threads.after_thread_self]
        exact agrees_won j
      · rw [Threads.after_thread_of_ne s hj, hready j]
        exact agrees_ready hj
    | lose hcas' =>
      rw [hcas] at hcas'
      cases hcas'
  · have hi := hagree i
    refine .inr ⟨w, ?_⟩
    generalize hp : s.thread i = p at hstep hi
    cases hstep with
    | win hcas =>
      rw [Attempt.cas_of_installed hclear (haligned w) hinstalled] at hcas
      cases hcas
    | lose _ =>
      exact ⟨hinstalled, agrees_after hagree
        { won_iff := hi.won_iff, result := by simp [Phase.result], read := by simp }⟩
    | reread =>
      refine ⟨hinstalled, agrees_after hagree
        { won_iff := ⟨fun hwon => absurd hwon Bool.false_ne_true, fun hj => (hi.won_iff.2 hj).elim⟩,
          result := fun r hr => ?_, read := by simp }⟩
      rw [← Option.some.inj hr]
      exact Attempt.lost_of_installed hclear (haligned w) hinstalled (calls i)
    | @readHint d r hcall =>
      obtain rfl := hi.won_iff.1 rfl
      have hdest : (calls i).destination = some d := by
        rw [hcall]
        rfl
      obtain ⟨tag, htag, hheader⟩ := hinstalled.destination_some hdest
      refine ⟨hinstalled, agrees_after hagree
        { won_iff := ⟨fun _ => rfl, fun _ => trivial⟩, result := hi.result,
          read := fun r' read' hread => ⟨d, tag, hdest, htag, ?_⟩ }⟩
      cases hread
      rw [hheader]
    | @writeHint r read =>
      obtain rfl := hi.won_iff.1 trivial
      obtain ⟨d, tag, hdest, htag, rfl⟩ := hi.read _ _ rfl
      obtain ⟨tag', _, hheader⟩ := hinstalled.destination_some hdest
      refine ⟨?_, agrees_after hagree
        { won_iff := ⟨fun _ => rfl, fun _ => trivial⟩, result := hi.result, read := by simp }⟩
      rw [Attempt.Installed, hdest]
      refine ⟨4#64, .inl rfl, ?_⟩
      rw [clear_hint (haligned i d hdest) htag, Threads.after_shared, hheader]
      rfl

theorem Race.inv_reaches {s : Race ι b} (hclear : TagsClear h.preserved)
    (haligned : ∀ i d, (calls i).destination = some d → tagBits d = 0)
    (hs : Threads.Reaches (raceStep h calls) (Race.start h) s) : s.Inv h calls :=
  hs.invariant (fun _ _ _ _ hc hstep => hc.step hclear haligned hstep)
    (.inl ⟨fun _ => rfl, rfl⟩)

/-- A call never waits: at any time its thread can finish it in two steps. -/
theorem Race.can_return (h : ForwardedHeader b) (calls : ι → Attempt) (s : Race ι b) (i : ι) :
    ∃ s', Threads.Reaches (raceStep h calls) s s' ∧ (s'.thread i).result.isSome := by
  have hfailed (s : Race ι b) (hi : s.thread i = .casFailed) :
      ∃ s', Threads.Reaches (raceStep h calls) s s' ∧ (s'.thread i).result.isSome := by
    have hstep : raceStep h calls i s.shared (s.thread i) s.shared
        (.returned false ((calls i).lost ⟨h.objectPtr, s.shared⟩)) := by
      rw [hi]
      exact .reread
    refine ⟨_, .one i hstep, ?_⟩
    rw [Threads.after_thread_self]
    rfl
  cases hi : s.thread i with
  | ready =>
    cases hcas : (calls i).cas h s.shared with
    | some header' =>
      have hstep : raceStep h calls i s.shared (s.thread i) header'
          (.returned true ((calls i).won h)) := by
        rw [hi]
        exact .win hcas
      refine ⟨_, .one i hstep, ?_⟩
      rw [Threads.after_thread_self]
      rfl
    | none =>
      have hstep : raceStep h calls i s.shared (s.thread i) s.shared .casFailed := by
        rw [hi]
        exact .lose hcas
      obtain ⟨s', hreach, hresult⟩ := hfailed (s.after i s.shared .casFailed)
        (Threads.after_thread_self ..)
      exact ⟨s', (Threads.Reaches.one i hstep).trans hreach, hresult⟩
  | casFailed => exact hfailed s hi
  | returned won r => exact ⟨s, .refl, by rw [hi]; rfl⟩
  | clearingHint r read => exact ⟨s, .refl, by rw [hi]; rfl⟩
  | hintCleared r => exact ⟨s, .refl, by rw [hi]; rfl⟩

/-- The race to forward an object is decided by its first compare-and-swap, and every call
and every later reading of the header agrees on how. -/
theorem Race.decided_once (h : ForwardedHeader b) (hclear : TagsClear h.preserved)
    (calls : ι → Attempt) (haligned : ∀ i d, (calls i).destination = some d → tagBits d = 0)
    {s : Race ι b} (hs : Threads.Reaches (raceStep h calls) (Race.start h) s) :
    ((∀ i, s.thread i = .ready) → s.shared = h.preserved) ∧
    ((∃ i, s.thread i ≠ .ready) → ∃! w, (s.thread w).Won) ∧
    (∀ i, ∃ s', Threads.Reaches (raceStep h calls) s s' ∧ (s'.thread i).result.isSome) ∧
    ∀ w, (s.thread w).Won →
      let reading : ForwardedHeader b := ⟨h.objectPtr, s.shared⟩
      (∀ d, (calls w).destination = some d →
        (∀ i r, (s.thread i).result = some r → r = d) ∧
        reading.isForwardedPointer = true ∧ reading.isSelfForwardedPointer = false ∧
        reading.isStrictlyForwardedPointer = true ∧ reading.getForwardedObject = d ∧
        reading.getNonStrictForwardedObject = d) ∧
      (calls w = .setSelfForwardedObject →
        (∀ i r, (s.thread i).result = some r → calls i = .setSelfForwardedObject →
          r = h.objectPtr) ∧
        (∀ i r, (s.thread i).result = some r → calls i ≠ .setSelfForwardedObject → r = 0) ∧
        reading.isForwardedPointer = true ∧ reading.isSelfForwardedPointer = true ∧
        reading.isStrictlyForwardedPointer = false ∧ reading.getForwardedObject = 0 ∧
        reading.getNonStrictForwardedObject = h.objectPtr ∧
        reading.restoreSelfForwardedPointer s.shared = h.preserved) := by
  have hinv := Race.inv_reaches hclear haligned hs
  refine ⟨fun hready => ?_, fun ⟨i, hi⟩ => ?_, Race.can_return h calls s, fun w hw => ?_⟩
  · rcases hinv with ⟨_, hheader⟩ | ⟨w, _, hagree⟩
    · exact hheader
    · have hwon := (hagree w).won_iff.2 rfl
      rw [hready w] at hwon
      exact hwon.elim
  · rcases hinv with ⟨hready, _⟩ | ⟨w, _, hagree⟩
    · exact absurd (hready i) hi
    · exact ⟨w, (hagree w).won_iff.2 rfl, fun j hj => (hagree j).won_iff.1 hj⟩
  · rcases hinv with ⟨hready, _⟩ | ⟨w', hinstalled, hagree⟩
    · rw [hready w] at hw
      exact hw.elim
    · obtain rfl := (hagree w).won_iff.1 hw
      intro reading
      constructor
      · intro d hd
        obtain ⟨tag, htag, hheader⟩ := hinstalled.destination_some hd
        refine ⟨fun i r hr => ?_, ?_⟩
        · rw [(hagree i).result r hr, Attempt.returns, hd]
        · have hreading := reading_forwardedFields (b := b) h.objectPtr (haligned w d hd) htag
          rwa [← hheader] at hreading
      · intro hself
        have hdest : (calls w).destination = none := by
          rw [hself]
          rfl
        have hheader := hinstalled.destination_none hdest
        obtain ⟨hfwd, hs1, hs2, hget, hnonStrict⟩ := reading_selfForwardedFields hclear
        have hrestore := restore_selfForwardedFields hclear
        rw [← hheader] at hfwd hs1 hs2 hget hnonStrict hrestore
        refine ⟨fun i r hr hi => ?_, fun i r hr hi => ?_, hfwd, hs1, hs2, hget, hnonStrict,
          hrestore⟩
        · rw [(hagree i).result r hr, hself, hi]
          rfl
        · rw [(hagree i).result r hr, hself]
          cases hcall : calls i with
          | setForwardedObject d => rfl
          | setForwardedObjectWithBeingCopiedHint d => rfl
          | setSelfForwardedObject => exact absurd hcall hi

/-- Thread 0 copies the object of a compressed heap while thread 1 fails to and forwards
it to itself too late. -/
theorem Race.decided_once_two_threads :
    let h : ForwardedHeader .compressedBigEndian := ⟨0x2000, ⟨0x10008#32, 0x55#32⟩⟩
    let calls : Fin 2 → Attempt :=
      ![.setForwardedObjectWithBeingCopiedHint 0x700000010, .setSelfForwardedObject]
    ∃ s : Race (Fin 2) .compressedBigEndian,
      Threads.Reaches (raceStep h calls) (Race.start h) s ∧
      (s.thread 1).result = some 0x700000010 ∧ (∃! w, (s.thread w).Won) ∧
      (ForwardedHeader.mk h.objectPtr s.shared).getForwardedObject = 0x700000010 := by
  intro h calls
  have haligned : ∀ i d, (calls i).destination = some d → tagBits d = 0 := by
    intro i d hd
    fin_cases i
    · rw [← Option.some.inj hd]
      rfl
    · cases hd
  have hwin : Threads.Reaches (raceStep h calls) (Race.start h)
      ((Race.start h).after 0 (forwardedFields _ 0x700000010 6) (.returned true 0x700000010)) :=
    .one 0 (.win (by decide))
  have hlose := hwin.trans (Threads.Reaches.one 1 (.lose (by decide)))
  have hs := hlose.trans (Threads.Reaches.one 1 .reread)
  have hdecided := Race.decided_once h (by decide) calls haligned hs
  refine ⟨_, hs, by decide, hdecided.2.1 ⟨0, by simp [Threads.after]⟩, ?_⟩
  exact ((hdecided.2.2.2 0 rfl).1 _ rfl).2.2.2.2.1

end Run

end ForwardedHeader

end OMR.GC
