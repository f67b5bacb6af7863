import OMR.Lib.Interleaving

/-!
# Threads that run programs

A program is a tree of atomic actions on a shared state, with loops. `Wp` is a weakest
precondition for one thread among others: each action keeps an invariant of the shared
state and leaves alone what the other threads rely on, their views of it. Threads whose
programs satisfy it keep the invariant in whatever order they run.
-/

namespace OMR.Lib

universe u v w

/-- What a thread still has to run. The effect of an action is atomic, and what follows may
depend on the state it was applied to. A loop runs its body until that gives a result. -/
inductive Program (S : Type u) : Type v → Type (max u (v + 1))
  | ret {A : Type v} (result : A) : Program S A
  | action {A : Type v} (effect : S → S) (next : S → Program S A) : Program S A
  | loop {A B : Type v} (body : Program S (Option B)) (next : B → Program S A) : Program S A

namespace Program

variable {S : Type u} {A B : Type v}

def bind {A B : Type v} : Program S A → (A → Program S B) → Program S B
  | .ret a, g => g a
  | .action effect next, g => .action effect fun s => (next s).bind g
  | .loop body next, g => .loop body fun b => (next b).bind g

instance : Monad (Program S) where
  pure := .ret
  bind := .bind

/-- The action that reads a result from the state and changes the state. -/
def atomic (f : S → A × S) : Program S A := .action (fun s => (f s).2) fun s => .ret (f s).1

/-- A loop that is left with the first result of its body. -/
def repeatUntil (body : Program S (Option B)) : Program S B := .loop body .ret

/-- Another round, or what follows the loop. -/
def again (body : Program S (Option B)) (next : B → Program S A) : Option B → Program S A
  | none => .loop body next
  | some b => next b

/-- The next action of a program, on the shared state. -/
inductive Next : S → Program S A → S → Program S A → Prop
  | action (s : S) (effect : S → S) (next : S → Program S A) :
      Next s (.action effect next) (effect s) (next s)
  | loop {B : Type v} (s : S) (body : Program S (Option B)) (next : B → Program S A) :
      Next s (.loop body next) s (body.bind (again body next))

end Program

/-- What threads share: the invariant of the shared state, each thread's view of it, and what
every action is known to do. -/
structure Sharing (S : Type u) (V : Type w) (T : Type*) where
  inv : S → Prop
  view : T → S → V
  does : S → S → Prop

namespace Sharing

variable {S : Type u} {V : Type w} {T : Type*} (σ : Sharing S V T)

/-- An action of thread `t` keeps the invariant and the other threads' views. -/
structure Safe (t : T) (s s' : S) : Prop where
  inv : σ.inv s'
  does : σ.does s s'
  others : ∀ t', t' ≠ t → σ.view t' s' = σ.view t' s

/-- The weakest precondition of a program of thread `t`, on the thread's view. -/
def Wp (t : T) {A : Type v} : Program S A → (A → V → Prop) → V → Prop
  | .ret a, Q, x => Q a x
  | .action effect next, Q, x => ∀ s, σ.inv s → σ.view t s = x →
      σ.Safe t s (effect s) ∧ Wp t (next s) Q (σ.view t (effect s))
  | .loop body next, Q, x => ∃ J : V → Prop, J x ∧ ∀ y, J y →
      Wp t body (fun result z => match result with
        | none => J z
        | some b => Wp t (next b) Q z) y

variable {σ} {t : T} {A B : Type v}

theorem Wp.mono {p : Program S A} {Q Q' : A → V → Prop} {x : V} (h : σ.Wp t p Q x)
    (hpost : ∀ a y, Q a y → Q' a y) : σ.Wp t p Q' x := by
  induction p generalizing x with
  | ret a => exact hpost a x h
  | action effect next ih =>
    intro s hinv hview
    obtain ⟨hsafe, hnext⟩ := h s hinv hview
    exact ⟨hsafe, ih s hnext hpost⟩
  | loop body next ihBody ihNext =>
    obtain ⟨J, hJ, hbody⟩ := h
    refine ⟨J, hJ, fun y hy => ihBody (hbody y hy) fun result z hz => ?_⟩
    cases result with
    | none => exact hz
    | some b => exact ihNext b hz hpost

theorem Wp.bind {p : Program S A} {g : A → Program S B} {Q : B → V → Prop} {x : V}
    (h : σ.Wp t p (fun a => σ.Wp t (g a) Q) x) : σ.Wp t (p.bind g) Q x := by
  induction p generalizing x with
  | ret a => exact h
  | action effect next ih =>
    intro s hinv hview
    obtain ⟨hsafe, hnext⟩ := h s hinv hview
    exact ⟨hsafe, ih s hnext⟩
  | loop body next _ ihNext =>
    obtain ⟨J, hJ, hbody⟩ := h
    refine ⟨J, hJ, fun y hy => (hbody y hy).mono fun result z hz => ?_⟩
    cases result with
    | none => exact hz
    | some b => exact ihNext b hz

theorem Wp.pure {a : A} {Q : A → V → Prop} {x : V} (h : Q a x) :
    σ.Wp t (Pure.pure a : Program S A) Q x := h

theorem Wp.atomic {f : S → A × S} {Q : A → V → Prop} {x : V}
    (h : ∀ s, σ.inv s → σ.view t s = x →
      σ.Safe t s (f s).2 ∧ Q (f s).1 (σ.view t (f s).2)) : σ.Wp t (Program.atomic f) Q x := h

/-- The rule of loops, with an invariant of the thread's view. -/
theorem Wp.repeatUntil {body : Program S (Option B)} {Q : B → V → Prop} {x : V} (J : V → Prop)
    (hJ : J x)
    (hbody : ∀ y, J y → σ.Wp t body (fun result z => (result = none → J z) ∧
      ∀ b, result = some b → Q b z) y) : σ.Wp t (Program.repeatUntil body) Q x := by
  refine ⟨J, hJ, fun y hy => (hbody y hy).mono fun result z hz => ?_⟩
  cases result with
  | none => exact hz.1 rfl
  | some b => exact hz.2 b rfl

/-- One step of the thread. -/
theorem Wp.next {p p' : Program S A} {Q : A → V → Prop} {s s' : S} (hinv : σ.inv s)
    (h : σ.Wp t p Q (σ.view t s)) (hnext : p.Next s s' p') :
    (s' = s ∨ σ.Safe t s s') ∧ σ.Wp t p' Q (σ.view t s') := by
  cases hnext with
  | action _ effect next =>
    obtain ⟨hsafe, hwp⟩ := h s hinv rfl
    exact ⟨.inr hsafe, hwp⟩
  | loop _ body next =>
    obtain ⟨J, hJ, hbody⟩ := h
    refine ⟨.inl rfl, Wp.bind ((hbody _ hJ).mono fun result z hz => ?_)⟩
    cases result with
    | none => exact ⟨J, hz, hbody⟩
    | some b => exact hz

/-- The threads' steps. -/
def runs (_ : T) (s : S) (p : Program S A) (s' : S) (p' : Program S A) : Prop := p.Next s s' p'

/-- The invariant holds, and each thread can go on. -/
structure Good (σ : Sharing S V T) (Q : T → A → V → Prop) (c : Threads T S (Program S A)) :
    Prop where
  inv : σ.inv c.shared
  wp : ∀ t, σ.Wp t (c.thread t) (Q t) (σ.view t c.shared)

variable [DecidableEq T] {Q : T → A → V → Prop} {c c' : Threads T S (Program S A)}

theorem Good.step (h : σ.Good Q c) (hstep : Threads.Step runs c c') :
    σ.Good Q c' ∧ (c'.shared = c.shared ∨ σ.does c.shared c'.shared) := by
  obtain ⟨t, hnext⟩ := hstep
  obtain ⟨hsafe, hwp⟩ := Wp.next h.inv (h.wp t) hnext
  rcases hsafe with rfl | hsafe
  · refine ⟨⟨h.inv, fun t' => ?_⟩, .inl rfl⟩
    by_cases heq : t' = t
    · subst heq
      rwa [Threads.after_thread_self]
    · rw [c.after_thread_of_ne heq]
      exact h.wp t'
  · refine ⟨⟨hsafe.inv, fun t' => ?_⟩, .inr hsafe.does⟩
    by_cases heq : t' = t
    · subst heq
      rwa [Threads.after_thread_self]
    · rw [c.after_thread_of_ne heq, Threads.after_shared, hsafe.others t' heq]
      exact h.wp t'

/-- Threads that satisfy their weakest preconditions do so in every configuration they reach. -/
theorem Good.reaches (h : σ.Good Q c) (hreaches : Threads.Reaches runs c c') : σ.Good Q c' :=
  hreaches.invariant (fun _ i _ _ hgood hnext => (hgood.step (.of i hnext)).1) h

end Sharing

end OMR.Lib
