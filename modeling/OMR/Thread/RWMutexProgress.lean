import OMR.Thread.RWMutexSafety

/-!
# Progress of the reader/writer mutex

Only a thread that holds nothing waits. So a thread that holds the mutex can always leave
it, a mutex that nobody holds lets somebody in, and every run can be led to its end.
-/

namespace OMR.Thread.RWMutex

open OMR.Lib

section Weight

variable {op : Operation} {holds : List Access}

/-- How far a call is from its return; an access that it enters has yet to be left. -/
def Operation.cost : Operation → ℕ
  | .exitRead | .exitWrite => 0
  | .enterRead | .enterWrite | .tryEnterWrite => 4

def Local.weight (l : Local) : ℕ :=
  2 * l.holds.length + match l.phase with
    | .outside => 1
    | .atMonitor op | .inWait op => op.cost

theorem settle_length_lt (result : Result) (huse : Permitted op holds) :
    2 * (settle op result holds).length + 1 < 2 * holds.length + op.cost := by
  cases op with
  | exitRead | exitWrite =>
    obtain ⟨rest, rfl⟩ := cons_of_head huse
    simp only [settle, Operation.cost, List.tail_cons, List.length_cons]
    omega
  | enterRead | enterWrite => simp only [settle, Operation.cost, List.length_cons]; omega
  | tryEnterWrite =>
    cases result <;> simp only [settle, Operation.cost, List.length_cons] <;> omega

/-- What is held can be left. -/
theorem exists_exit (hne : holds ≠ []) : ∃ op, op.cost = 0 ∧ Permitted op holds := by
  obtain ⟨a, rest, rfl⟩ := List.exists_cons_of_ne_nil hne
  cases a with
  | read => exact ⟨.exitRead, rfl, rfl⟩
  | write => exact ⟨.exitWrite, rfl, rfl⟩

end Weight

variable {ι : Type*} [Fintype ι] [DecidableEq ι] {c : Threads ι (Mutex ι) Local} {i : ι}
  {m m₁ m' : Mutex ι} {l' : Local} {op : Operation} {notification : Notification}

omit [Fintype ι] in
theorem exists_delivers (notification : Notification) (m : Mutex ι) :
    ∃ m', Delivers notification m m' := by
  cases notification with
  | none => exact ⟨m, .none m⟩
  | notifyAll => exact ⟨_, .notifyAll m⟩
  | notify =>
    obtain h | ⟨i, hi⟩ := m.waiting.eq_empty_or_nonempty
    · exact ⟨m, .nobody h⟩
    · exact ⟨_, .notify hi⟩

omit [Fintype ι] in
theorem Delivers.disjoint (h : Delivers notification m m')
    (hdisjoint : Disjoint m.waiting m.notified) : Disjoint m'.waiting m'.notified := by
  cases h with
  | none | nobody => exact hdisjoint
  | notify | notifyAll =>
    exact Finset.disjoint_union_right.2
      ⟨hdisjoint.mono_left Finset.sdiff_subset, Finset.sdiff_disjoint⟩

/-- What is known of the threads in a wait. -/
structure Waits (c : Threads ι (Mutex ι) Local) : Prop where
  holds_nil : ∀ i op, (c.thread i).phase = .inWait op → (c.thread i).holds = []
  disjoint : Disjoint c.shared.waiting c.shared.notified

/-- A call that waits asks for write access, or finds a writer, which is alone. -/
theorem Invariant.nil_of_waits (h : Invariant c)
    (hpending : Pending c.shared.writer i (c.thread i) op)
    (hinside : insideMonitor i (c.shared.enter i) op = (m₁, .waits, notification)) :
    (c.thread i).holds = [] := by
  cases op with
  | enterRead =>
    simp only [insideMonitor] at hinside
    split at hinside
    · next hneg =>
      obtain ⟨w, hw⟩ : ∃ w, c.shared.writer = some w := by
        refine Option.ne_none_iff_exists'.1 fun hnone => ?_
        have hheld := h.held
        rw [hnone] at hheld
        change c.shared.status < 0 at hneg
        generalize c.shared.status = status at hheld hneg
        cases hheld
        omega
      exact (h.held.bottom hw).2.1 i fun heq => hpending.not_writer (by decide) (heq ▸ hw)
    · cases hinside
  | enterWrite =>
    refine hpending.permitted.resolve_right fun hmem => ?_
    exact hpending.not_writer (by decide) (h.held.writer_iff.2 hmem)
  | exitRead => cases hinside
  | tryEnterWrite | exitWrite =>
    simp only [insideMonitor] at hinside
    split at hinside <;> cases hinside

omit [Fintype ι] in
theorem Waits.after (hw : Waits c) (hself : ∀ op, l'.phase = .inWait op → l'.holds = [])
    (hdisjoint : Disjoint m'.waiting m'.notified) : Waits (c.after i m' l') where
  holds_nil j op hop := by
    by_cases hj : j = i
    · subst hj
      rw [Threads.after_thread_self] at hop ⊢
      exact hself op hop
    · rw [Threads.after_thread_of_ne _ hj] at hop ⊢
      exact hw.holds_nil j op hop
  disjoint := hdisjoint

theorem Waits.step_monitor (hw : Waits c) (h : Invariant c) {outcome : Outcome} {m₂ : Mutex ι}
    (henter : CanEnter i c.shared (c.thread i) op)
    (hinside : insideMonitor i (c.shared.enter i) op = (m₁, outcome, notification))
    (hnotify : Delivers notification m₁ m₂) :
    Waits (c.after i (m₂.leave i outcome) ((c.thread i).leave op outcome)) := by
  have hpending := h.pending i op (henter.imp id And.left)
  obtain ⟨-, hwaiting, hnotified, -⟩ :=
    insideMonitor_spec (m := c.shared.enter i) hpending h.held.writer_iff hinside
  have hdisjoint : Disjoint m₂.waiting m₂.notified := by
    apply hnotify.disjoint
    rw [hwaiting, hnotified]
    exact hw.disjoint.mono_right (Finset.erase_subset _ _)
  cases outcome with
  | returns => exact hw.after (fun _ hop => (by cases hop)) hdisjoint
  | waits =>
    refine hw.after (fun _ _ => h.nil_of_waits hpending hinside)
      (Finset.disjoint_insert_left.2 ⟨fun hmem => ?_, hdisjoint⟩)
    obtain hi | hi := hnotify.mem_before (.inr hmem)
    · exact h.not_waiting henter (hwaiting ▸ hi)
    · exact Finset.notMem_erase i _ (hnotified ▸ hi)

theorem Waits.step (hw : Waits c) (h : Invariant c)
    (hstep : Step i c.shared (c.thread i) m' l') : Waits (c.after i m' l') := by
  cases hstep with
  | asWriter hphase huse hbefore =>
    obtain ⟨-, hwaiting, hnotified, -⟩ := beforeMonitor_spec huse hbefore
    refine hw.after (fun op hop => ?_) (hwaiting ▸ hnotified ▸ hw.disjoint)
    simp [hphase] at hop
  | call => exact hw.after (fun _ hop => (by cases hop)) hw.disjoint
  | monitor henter hinside hnotify => exact hw.step_monitor h henter hinside hnotify
  | spurious =>
    exact hw.after (hw.holds_nil i) (hw.disjoint.mono_left (Finset.erase_subset _ _))

/-- Inside the monitor a call returns if the thread holds the mutex or nobody does. -/
theorem Invariant.exists_returns (h : Invariant c) (henter : CanEnter i c.shared (c.thread i) op)
    (hgo : c.shared.status = 0 ∨ (c.thread i).holds ≠ []) : ∃ m₁ result notification,
      insideMonitor i (c.shared.enter i) op = (m₁, .returns result, notification) := by
  have hpending := h.pending i op (henter.imp id And.left)
  obtain ⟨⟨m₁, outcome, notification⟩, hinside⟩ :
      ∃ r, insideMonitor i (c.shared.enter i) op = r := ⟨_, rfl⟩
  cases outcome with
  | returns result => exact ⟨m₁, result, notification, hinside⟩
  | waits =>
    have hne := ((insideMonitor_spec (m := c.shared.enter i) hpending h.held.writer_iff
      hinside).2.2.2.1 rfl).2
    exact absurd (h.nil_of_waits hpending hinside) (hgo.resolve_left hne)

/-- While a thread is in a call, the mutex is held outside of calls or a call can return. -/
theorem Invariant.progress (h : Invariant c) (hw : Waits c)
    (hcall : (c.thread i).phase ≠ .outside) :
    (∃ j, (c.thread j).phase = .outside ∧ (c.thread j).holds ≠ []) ∨
      ∃ j op, CanEnter j c.shared (c.thread j) op ∧
        (c.shared.status = 0 ∨ (c.thread j).holds ≠ []) := by
  by_cases hheld : ∃ j, (c.thread j).holds ≠ []
  · obtain ⟨j, hj⟩ := hheld
    cases hphase : (c.thread j).phase with
    | outside => exact .inl ⟨j, hphase, hj⟩
    | atMonitor op => exact .inr ⟨j, op, .inl hphase, .inr hj⟩
    | inWait op => exact absurd (hw.holds_nil j op hphase) hj
  · have hzero : c.shared.status = 0 := by
      by_contra hne
      exact hheld (h.held.exists_holds hne)
    refine .inr ?_
    by_cases hin : i ∈ c.shared.waiting
    · obtain ⟨j, hj⟩ := h.wakeup hzero ⟨i, hin⟩
      obtain ⟨op, hop⟩ := h.waits j (.inr hj)
      exact ⟨j, op, .inr ⟨hop, Finset.disjoint_right.1 hw.disjoint hj⟩, .inl hzero⟩
    · cases hphase : (c.thread i).phase with
      | outside => exact absurd hphase hcall
      | atMonitor op => exact ⟨i, op, .inl hphase, .inl hzero⟩
      | inWait op => exact ⟨i, op, .inr ⟨hphase, hin⟩, .inl hzero⟩

omit [Fintype ι] in
/-- A thread that holds the mutex outside of calls can leave it, or call to. -/
theorem exists_leaving (hphase : (c.thread i).phase = .outside)
    (hne : (c.thread i).holds ≠ []) : ∃ m' l', Step i c.shared (c.thread i) m' l' ∧
      l'.weight < (c.thread i).weight := by
  obtain ⟨op, hcost, huse⟩ := exists_exit hne
  have hlt := settle_length_lt .ok huse
  cases hbefore : beforeMonitor i c.shared op with
  | none =>
    refine ⟨_, _, .call op hphase huse hbefore, ?_⟩
    simp only [Local.weight, hphase, hcost]
    omega
  | some m' =>
    refine ⟨_, _, .asWriter hphase huse hbefore, ?_⟩
    simp only [Local.weight, hphase]
    omega

theorem Invariant.exists_lowering (h : Invariant c) (hw : Waits c) :
    (∀ i, (c.thread i).phase = .outside ∧ (c.thread i).holds = []) ∨
      ∃ i m' l', Step i c.shared (c.thread i) m' l' ∧ l'.weight < (c.thread i).weight := by
  by_contra hstuck
  push Not at hstuck
  obtain ⟨⟨i, hi⟩, hstuck⟩ := hstuck
  have hleave (j : ι) (hj : (c.thread j).phase = .outside) : (c.thread j).holds = [] := by
    by_contra hne
    obtain ⟨m', l', hstep, hlt⟩ := exists_leaving hj hne
    exact (hstuck j m' l' hstep).not_gt hlt
  obtain ⟨j, hphase, hj⟩ | ⟨j, op, henter, hgo⟩ := h.progress hw fun hout => hi hout (hleave i hout)
  · exact hj (hleave j hphase)
  · obtain ⟨m₁, result, notification, hinside⟩ := h.exists_returns henter hgo
    obtain ⟨m₂, hnotify⟩ := exists_delivers notification m₁
    have huse := (h.pending j op (henter.imp id And.left)).permitted
    refine (hstuck j _ _ (.monitor henter hinside hnotify)).not_gt ?_
    have hlt := settle_length_lt result huse
    change 2 * (settle op result (c.thread j).holds).length + 1 < _
    obtain hphase | ⟨hphase, -⟩ := henter <;> rwa [Local.weight, hphase]

/-- No reachable state is stuck: while a thread is in a call, the mutex is held outside of
calls or some call can return, and every run can be led to where all threads are outside and
nobody holds the mutex. -/
theorem rwmutex_never_stuck (h : Threads.Reaches Step start c) :
    (∀ i, (c.thread i).phase ≠ .outside →
      (∃ j, (c.thread j).phase = .outside ∧ (c.thread j).holds ≠ []) ∨
        ∃ j op result, CanEnter j c.shared (c.thread j) op ∧
          Returns j c.shared (c.thread j) op result) ∧
      ∃ c', Threads.Reaches Step c c' ∧ c'.shared.status = 0 ∧ c'.shared.writer = none ∧
        c'.shared.waiting = ∅ ∧
        ∀ i, (c'.thread i).phase = .outside ∧ (c'.thread i).holds = [] := by
  have hstep (c : Threads ι (Mutex ι) Local) (i : ι) (m' : Mutex ι) (l' : Local)
      (hc : Invariant c ∧ Waits c) (hi : Step i c.shared (c.thread i) m' l') :
      Invariant (c.after i m' l') ∧ Waits (c.after i m' l') :=
    ⟨hc.1.step hi, hc.2.step hc.1 hi⟩
  have hinv := Threads.Reaches.invariant hstep h
    ⟨invariant_start, fun _ _ hop => (by cases hop), Finset.disjoint_empty_left _⟩
  constructor
  · intro i hcall
    obtain hheld | ⟨j, op, henter, hgo⟩ := hinv.1.progress hinv.2 hcall
    · exact .inl hheld
    · obtain ⟨m₁, result, notification, hinside⟩ := hinv.1.exists_returns henter hgo
      exact .inr ⟨j, op, result, henter, .monitor henter hinside⟩
  · obtain ⟨c', hreach, hinv', hlast⟩ := Threads.exists_reaches Local.weight hstep
      (fun c hc => hc.1.exists_lowering hc.2) hinv
    have hzero : c'.shared.status = 0 := by
      by_contra hne
      obtain ⟨j, hj⟩ := hinv'.1.held.exists_holds hne
      exact hj (hlast j).2
    refine ⟨c', hreach, hzero, (hinv'.1.held.not_writing hzero.ge).1, ?_, hlast⟩
    refine Finset.eq_empty_of_forall_notMem fun i hi => ?_
    obtain ⟨op, hop⟩ := hinv'.1.waits i (.inl hi)
    exact Phase.noConfusion ((hlast i).1.symm.trans hop)

/-- A reader that has called can be led to leave. -/
theorem rwmutex_never_stuck_reader : ∃ c' : Threads (Fin 2) (Mutex (Fin 2)) Local,
    Threads.Reaches Step (start.after 1 start.shared ⟨[], .atMonitor .enterRead⟩) c' ∧
      ∀ i, (c'.thread i).phase = .outside ∧ (c'.thread i).holds = [] := by
  obtain ⟨-, c', hreach, -, -, -, hlast⟩ :=
    rwmutex_never_stuck (ι := Fin 2) (.one 1 (.call .enterRead rfl trivial rfl))
  exact ⟨c', hreach, hlast⟩

end OMR.Thread.RWMutex
