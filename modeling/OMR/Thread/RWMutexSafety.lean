import OMR.Thread.RWMutex

/-!
# Safety of the reader/writer mutex

Who holds what determines the status. A step changes what one thread holds in one of a few
ways, and the status with it; the monitor never forgets a thread that waits.
-/

namespace OMR.Thread.RWMutex

open OMR.Lib

/-- A step on what one thread holds, with the status and the writer before and after. -/
inductive Change {ι : Type*} (i : ι) :
    ℤ → Option ι → List Access → ℤ → Option ι → List Access → Prop
  | none (status : ℤ) (writer : Option ι) (holds : List Access) :
    Change i status writer holds status writer holds
  | ownRead (status : ℤ) (holds : List Access) :
    Change i status (some i) holds status (some i) (.read :: holds)
  | ownUnread (status : ℤ) (holds : List Access) :
    Change i status (some i) (.read :: holds) status (some i) holds
  | ownWrite (status : ℤ) (holds : List Access) :
    Change i status (some i) holds (status - 1) (some i) (.write :: holds)
  | read {status : ℤ} (writer : Option ι) (holds : List Access) (h : 0 ≤ status) :
    Change i status writer holds (status + 1) writer (.read :: holds)
  | unread (status : ℤ) {writer : Option ι} (holds : List Access) (h : writer ≠ some i) :
    Change i status writer (.read :: holds) (status - 1) writer holds
  | write (writer : Option ι) : Change i 0 writer [] (-1) (some i) [.write]
  | unwrite {status : ℤ} (writer : Option ι) (holds : List Access) (h : status + 1 ≠ 0) :
    Change i status writer (.write :: holds) (status + 1) writer holds
  | release (writer : Option ι) (holds : List Access) :
    Change i (-1) writer (.write :: holds) 0 none holds

section Holds

variable {ι : Type*} [Fintype ι] [DecidableEq ι] {i : ι} {status status' : ℤ}
  {writer writer' : Option ι} {holds : ι → List Access} {own own' : List Access}

/-- The mutex is free of writers and counts the reads, or a writer that holds write access
at the bottom of all it holds is alone. -/
inductive Held : ℤ → Option ι → (ι → List Access) → Prop
  | reading {holds : ι → List Access} (hread : ∀ i, .write ∉ holds i) :
    Held (∑ i, (holds i).count .read : ℕ) none holds
  | writing {w : ι} {holds : ι → List Access} (hbottom : (holds w).getLast? = some .write)
      (hothers : ∀ j, j ≠ w → holds j = []) : Held (-(holds w).count .write) (some w) holds

theorem write_mem_of_getLast {own : List Access} (h : own.getLast? = some .write) :
    .write ∈ own := List.mem_of_getLast? h

theorem getLast_cons_of_write_mem {own : List Access} {a : Access} (h : Access.write ∈ own) :
    (a :: own).getLast? = own.getLast? :=
  List.getLast?_cons_of_ne_nil (List.ne_nil_of_mem h)

namespace Held

omit [DecidableEq ι] in
/-- The status of a mutex with a writer is negative. -/
theorem not_writing (h : Held status writer holds) (hstatus : 0 ≤ status) :
    writer = none ∧ status = (∑ i, (holds i).count .read : ℕ) ∧ ∀ i, .write ∉ holds i := by
  cases h with
  | reading hread => exact ⟨rfl, rfl, hread⟩
  | writing hbottom =>
    have hpos := List.count_pos_iff.2 (write_mem_of_getLast hbottom)
    omega

theorem writer_iff (h : Held status writer holds) :
    writer = some i ↔ .write ∈ holds i := by
  cases h with
  | reading hread =>
    refine ⟨fun h => ?_, fun hmem => absurd hmem (hread i)⟩
    cases h
  | @writing w _ hbottom hothers =>
    constructor
    · intro h
      cases h
      exact write_mem_of_getLast hbottom
    · intro hmem
      by_contra hne
      have hnil := hothers i fun heq => hne (congrArg some heq.symm)
      rw [hnil] at hmem
      cases hmem

omit [DecidableEq ι] in
theorem bottom (h : Held status writer holds) (hw : writer = some i) :
    (holds i).getLast? = some .write ∧ (∀ j, j ≠ i → holds j = []) ∧
      status = -(holds i).count .write := by
  cases h with
  | reading => cases hw
  | writing hbottom hothers =>
    cases hw
    exact ⟨hbottom, hothers, rfl⟩

omit [DecidableEq ι] in
/-- At status 0 nobody holds the mutex. -/
theorem nil_of_status_zero (h : Held status writer holds) (hzero : status = 0) (j : ι) :
    holds j = [] := by
  obtain ⟨-, hsum, hread⟩ := h.not_writing hzero.ge
  have hcount : (holds j).count .read = 0 := by
    have hle := Finset.single_le_sum (f := fun j => (holds j).count Access.read)
      (fun _ _ => Nat.zero_le _) (Finset.mem_univ j)
    omega
  have hnone : ∀ a, a ∉ holds j := by
    intro a
    cases a with
    | read => exact List.count_eq_zero.1 hcount
    | write => exact hread j
  exact List.eq_nil_iff_forall_not_mem.2 hnone

omit [DecidableEq ι] in
/-- At any other status somebody does. -/
theorem exists_holds (h : Held status writer holds) (hne : status ≠ 0) : ∃ j, holds j ≠ [] := by
  by_contra hnone
  push Not at hnone
  apply hne
  cases h with
  | reading => simp [hnone]
  | @writing w => simp [hnone]

/-- The number of read holds when one thread's change. -/
theorem sum_reads (holds : ι → List Access) (i : ι) (own' : List Access) :
    (∑ j, (Function.update holds i own' j).count .read) + (holds i).count .read =
      (∑ j, (holds j).count .read) + own'.count .read :=
  sum_update (fun own => own.count .read) holds i own'

omit [Fintype ι] in
theorem no_write_update {own' : List Access} (h : ∀ j, .write ∉ holds j)
    (h' : .write ∉ own') (j : ι) : .write ∉ Function.update holds i own' j := by
  by_cases hj : j = i
  · subst hj
    rwa [Function.update_self]
  · rw [Function.update_of_ne hj]
    exact h j

/-- The writer's holds change and the others stay without any. -/
theorem of_writing (own' : List Access) (hbottom : own'.getLast? = some .write)
    (hothers : ∀ j, j ≠ i → holds j = []) :
    Held (-own'.count .write) (some i) (Function.update holds i own') := by
  have h := @Held.writing ι _ i (Function.update holds i own')
    (by rwa [Function.update_self])
    (fun j hj => by rw [Function.update_of_ne hj]; exact hothers j hj)
  rwa [Function.update_self] at h

/-- Reads change and nobody writes. -/
theorem of_reading {own' : List Access} (h : ∀ j, .write ∉ holds j) (h' : .write ∉ own')
    (hstatus : status' + (holds i).count .read =
      (∑ j, (holds j).count .read : ℕ) + own'.count .read) :
    Held status' none (Function.update holds i own') := by
  have hsum := sum_reads holds i own'
  have heq : status' = (∑ j, (Function.update holds i own' j).count .read : ℕ) := by
    omega
  rw [heq]
  exact .reading (no_write_update h h')

theorem change (h : Held status writer holds) (hown : holds i = own)
    (hchange : Change i status writer own status' writer' own') :
    Held status' writer' (Function.update holds i own') := by
  cases hchange with
  | none =>
    rw [← hown, Function.update_eq_self]
    exact h
  | ownRead =>
    obtain ⟨hbottom, hothers, rfl⟩ := h.bottom rfl
    rw [hown] at hbottom ⊢
    have hnew := of_writing (i := i) (.read :: own)
      (by rwa [getLast_cons_of_write_mem (write_mem_of_getLast hbottom)]) hothers
    rwa [List.count_cons_of_ne (by decide)] at hnew
  | ownUnread =>
    obtain ⟨hbottom, hothers, rfl⟩ := h.bottom rfl
    rw [hown] at hbottom
    have hmem : .write ∈ own' := by
      have hmem := write_mem_of_getLast hbottom
      simpa using hmem
    rw [getLast_cons_of_write_mem hmem] at hbottom
    have hnew := of_writing _ hbottom hothers
    rwa [hown, List.count_cons_of_ne (by decide)]
  | ownWrite =>
    obtain ⟨hbottom, hothers, rfl⟩ := h.bottom rfl
    rw [hown] at hbottom
    have hnew := of_writing (i := i) (.write :: own)
      (by rwa [getLast_cons_of_write_mem (write_mem_of_getLast hbottom)]) hothers
    rw [List.count_cons_self] at hnew
    rw [hown]
    convert hnew using 1
    push_cast
    ring
  | read _ _ hpos =>
    obtain ⟨rfl, hsum, hread⟩ := h.not_writing hpos
    have hnot := hread i
    rw [hown] at hnot
    refine of_reading hread (by simpa using hnot) ?_
    rw [hown, List.count_cons_self, hsum]
    push_cast
    ring
  | unread _ _ hne =>
    have hnot : .write ∉ holds i := fun hmem => hne (h.writer_iff.2 hmem)
    cases h with
    | writing hbottom hothers =>
      rw [hothers i fun heq => hne (congrArg some heq.symm)] at hown
      cases hown
    | reading hread =>
      rw [hown] at hnot
      refine of_reading hread (fun hmem => hnot (List.mem_cons_of_mem _ hmem)) ?_
      rw [hown, List.count_cons_self]
      push_cast
      ring
  | write =>
    exact of_writing [.write] rfl fun j _ => h.nil_of_status_zero rfl j
  | unwrite _ _ hne =>
    have hw : writer = some i := h.writer_iff.2 (by rw [hown]; exact List.mem_cons_self)
    obtain ⟨hbottom, hothers, rfl⟩ := h.bottom hw
    rw [hown, List.count_cons_self] at hne
    have hmem : .write ∈ own' := List.count_pos_iff.1 (by omega)
    rw [hown, getLast_cons_of_write_mem hmem] at hbottom
    have hnew := of_writing _ hbottom hothers
    rw [hown, List.count_cons_self, hw]
    convert hnew using 1
    push_cast
    ring
  | release =>
    have hw : writer = some i := h.writer_iff.2 (by rw [hown]; exact List.mem_cons_self)
    obtain ⟨hbottom, hothers, hstatus⟩ := h.bottom hw
    rw [hown, List.count_cons_self] at hstatus
    have hnot : .write ∉ own' := List.count_eq_zero.1 (by omega)
    have hnil : own' = [] := by
      by_contra hne
      rw [hown, List.getLast?_cons_of_ne_nil hne] at hbottom
      exact hnot (write_mem_of_getLast hbottom)
    subst hnil
    have hothers' (j : ι) : Function.update holds i [] j = [] := by
      by_cases hj : j = i
      · rw [hj, Function.update_self]
      · rw [Function.update_of_ne hj, hothers j hj]
    have hnew := @Held.reading ι _ (Function.update holds i [])
      (fun j => by rw [hothers' j]; exact List.not_mem_nil)
    simpa [hothers'] using hnew

end Held

end Holds

section Steps

variable {ι : Type*} [DecidableEq ι] {i j : ι} {m m₁ m' : Mutex ι} {l l' : Local}
  {op : Operation} {outcome : Outcome} {notification : Notification}

/-- What a call that stands at the monitor or waits in it knows. -/
structure Pending (writer : Option ι) (i : ι) (l : Local) (op : Operation) : Prop where
  permitted : Permitted op l.holds
  not_writer : op ≠ .exitWrite → writer ≠ some i

/-- `Change`, for the mutex and the local state. -/
def Changes (i : ι) (m : Mutex ι) (l : Local) (m' : Mutex ι) (l' : Local) : Prop :=
  Change i m.status m.writer l.holds m'.status m'.writer l'.holds

theorem cons_of_head {own : List Access} {a : Access} (h : own.head? = some a) :
    ∃ rest, own = a :: rest := by
  cases own with
  | nil => cases h
  | cons b rest =>
    cases h
    exact ⟨rest, rfl⟩

omit [DecidableEq ι] in
/-- Only a thread's own steps make it the writer. -/
theorem Changes.writer_ne (h : Changes i m l m' l') (hj : j ≠ i) (hne : m.writer ≠ some j) :
    m'.writer ≠ some j := by
  have hi : some i ≠ some j := fun heq => hj (Option.some.inj heq).symm
  unfold Changes at h
  generalize m'.writer = writer', m.writer = writer, m.status = status, m'.status = status',
    l.holds = own, l'.holds = own' at h hne
  cases h with
  | none | read | unread | unwrite => exact hne
  | ownRead | ownUnread | ownWrite | write => exact hi
  | release => exact Option.some_ne_none j ∘ Eq.symm

/-- The update that the writer makes without the monitor. -/
theorem beforeMonitor_spec (huse : Permitted op l.holds) (h : beforeMonitor i m op = some m') :
    Changes i m l m' { l with holds := settle op .ok l.holds } ∧
      m'.waiting = m.waiting ∧ m'.notified = m.notified ∧ m'.writer = some i := by
  obtain ⟨status, writer, waiting, notified⟩ := m
  cases op with
  | enterRead =>
    simp only [beforeMonitor] at h
    split at h
    · next hw =>
      cases h
      cases hw
      exact ⟨.ownRead _ _, rfl, rfl, rfl⟩
    · cases h
  | exitRead =>
    simp only [beforeMonitor] at h
    split at h
    · next hw =>
      cases h
      cases hw
      obtain ⟨rest, hrest⟩ := cons_of_head huse
      refine ⟨?_, rfl, rfl, rfl⟩
      simp only [Changes, settle, hrest, List.tail_cons]
      exact .ownUnread _ _
    · cases h
  | enterWrite | tryEnterWrite =>
    simp only [beforeMonitor] at h
    split at h
    · next hw =>
      cases h
      cases hw
      exact ⟨.ownWrite _ _, rfl, rfl, rfl⟩
    · cases h
  | exitWrite => cases h

omit [DecidableEq ι] in
/-- A step inside the monitor: it waits only at a status that is not 0, and one that makes
the status 0 notifies. -/
theorem insideMonitor_spec (hpending : Pending m.writer i l op)
    (hwriter : m.writer = some i ↔ .write ∈ l.holds)
    (h : insideMonitor i m op = (m₁, outcome, notification)) :
    Changes i m l m₁ (l.leave op outcome) ∧ m₁.waiting = m.waiting ∧
      m₁.notified = m.notified ∧ (outcome = .waits → m₁ = m ∧ m.status ≠ 0) ∧
      (m₁.status = 0 → notification ≠ .none) := by
  obtain ⟨huse, hnot⟩ := hpending
  obtain ⟨status, writer, waiting, notified⟩ := m
  obtain ⟨own, phase⟩ := l
  cases op with
  | enterRead =>
    simp only [insideMonitor] at h
    split at h <;> cases h
    · next hneg =>
      exact ⟨.none _ _ _, rfl, rfl, fun _ => ⟨rfl, hneg.ne⟩, fun hzero => absurd hzero hneg.ne⟩
    · next hneg =>
      refine ⟨.read _ _ (not_lt.1 hneg), rfl, rfl, fun hwait => (by cases hwait), fun hzero => ?_⟩
      simp only at hzero hneg
      omega
  | exitRead =>
    simp only [insideMonitor] at h
    cases h
    obtain ⟨rest, rfl⟩ := cons_of_head huse
    refine ⟨.unread _ _ (hnot (by decide)), rfl, rfl, fun hwait => (by cases hwait),
      fun hzero => ?_⟩
    rw [if_pos (show 0 = status - 1 from hzero.symm)]
    decide
  | enterWrite =>
    have hnil : own = [] := huse.resolve_right fun hmem => hnot (by decide) (hwriter.2 hmem)
    subst hnil
    simp only [insideMonitor] at h
    split at h <;> cases h
    · next hne => exact ⟨.none _ _ _, rfl, rfl, fun _ => ⟨rfl, hne⟩, fun hzero => absurd hzero hne⟩
    · next hzero =>
      obtain rfl : status = 0 := not_not.1 hzero
      exact ⟨.write _, rfl, rfl, fun hwait => (by cases hwait), fun h => (by cases h)⟩
  | tryEnterWrite =>
    have hnil : own = [] := huse.resolve_right fun hmem => hnot (by decide) (hwriter.2 hmem)
    subst hnil
    simp only [insideMonitor] at h
    split at h <;> cases h
    · next hne =>
      exact ⟨.none _ _ _, rfl, rfl, fun hwait => (by cases hwait), fun hzero => absurd hzero hne⟩
    · next hzero =>
      obtain rfl : status = 0 := not_not.1 hzero
      exact ⟨.write _, rfl, rfl, fun hwait => (by cases hwait), fun h => (by cases h)⟩
  | exitWrite =>
    obtain ⟨rest, rfl⟩ := cons_of_head huse
    simp only [insideMonitor] at h
    split at h <;> cases h
    · next hzero =>
      obtain rfl : status = -1 := by omega
      exact ⟨.release _ _, rfl, rfl, fun hwait => (by cases hwait), fun _ => by decide⟩
    · next hne =>
      exact ⟨.unwrite _ _ (Ne.symm hne), rfl, rfl, fun hwait => (by cases hwait),
        fun hzero => absurd hzero.symm hne⟩

namespace Delivers

theorem status_eq (h : Delivers notification m m') : m'.status = m.status := by
  cases h <;> rfl

theorem writer_eq (h : Delivers notification m m') : m'.writer = m.writer := by
  cases h <;> rfl

/-- A thread that is woken up has waited. -/
theorem mem_before (h : Delivers notification m m') (hj : j ∈ m'.waiting ∨ j ∈ m'.notified) :
    j ∈ m.waiting ∨ j ∈ m.notified := by
  cases h with
  | none | nobody => exact hj
  | notify hi =>
    simp only [Mutex.wake, Finset.mem_sdiff, Finset.mem_union, Finset.mem_singleton] at hj
    obtain hj | hj | rfl := hj
    · exact .inl hj.1
    · exact .inr hj
    · exact .inl hi
  | notifyAll =>
    simp only [Mutex.wake, Finset.mem_sdiff, Finset.mem_union] at hj
    obtain hj | hj | hj := hj
    · exact .inl hj.1
    · exact .inr hj
    · exact .inl hj

/-- A notification reaches a thread if one waits. -/
theorem notified_nonempty (h : Delivers notification m m') (hsent : notification ≠ .none)
    (hwait : m'.waiting.Nonempty) : m'.notified.Nonempty := by
  cases h with
  | none => exact absurd rfl hsent
  | nobody hempty =>
    rw [hempty] at hwait
    exact absurd hwait Finset.not_nonempty_empty
  | notify hi => exact ⟨_, Finset.mem_union_right _ (Finset.mem_singleton_self _)⟩
  | notifyAll =>
    simp only [Mutex.wake, Finset.sdiff_self] at hwait
    exact absurd hwait Finset.not_nonempty_empty

end Delivers

@[simp] theorem leave_status : (m.leave i outcome).status = m.status := by cases outcome <;> rfl

@[simp] theorem leave_writer : (m.leave i outcome).writer = m.writer := by cases outcome <;> rfl

@[simp] theorem leave_notified : (m.leave i outcome).notified = m.notified := by
  cases outcome <;> rfl

/-- A thread that is left in the monitor was there or is the one that waits now. -/
theorem mem_leave (hj : j ∈ (m.leave i outcome).waiting) :
    j ∈ m.waiting ∨ j = i ∧ outcome = .waits := by
  cases outcome with
  | waits =>
    obtain rfl | hj := Finset.mem_insert.1 hj
    · exact .inr ⟨rfl, rfl⟩
    · exact .inl hj
  | returns => exact .inl hj

end Steps

section Configurations

variable {ι : Type*} [Fintype ι] [DecidableEq ι] {c : Threads ι (Mutex ι) Local} {i : ι}
  {m' : Mutex ι} {l' : Local}

/-- The threads that have not come back from a wait are those in it and those notified. -/
def InMonitor (m : Mutex ι) (i : ι) : Prop := i ∈ m.waiting ∨ i ∈ m.notified

structure Invariant (c : Threads ι (Mutex ι) Local) : Prop where
  held : Held c.shared.status c.shared.writer fun i => (c.thread i).holds
  pending : ∀ i op, (c.thread i).phase = .atMonitor op ∨ (c.thread i).phase = .inWait op →
    Pending c.shared.writer i (c.thread i) op
  waits : ∀ i, InMonitor c.shared i → ∃ op, (c.thread i).phase = .inWait op
  wakeup : c.shared.status = 0 → c.shared.waiting.Nonempty → c.shared.notified.Nonempty

/-- The invariant after a step, from what the step does to the thread that takes it. -/
theorem Invariant.after (h : Invariant c) (hchange : Changes i c.shared (c.thread i) m' l')
    (hpending : ∀ op, l'.phase = .atMonitor op ∨ l'.phase = .inWait op →
      Pending m'.writer i l' op)
    (hself : InMonitor m' i → ∃ op, l'.phase = .inWait op)
    (hothers : ∀ j, j ≠ i → InMonitor m' j → InMonitor c.shared j)
    (hwakeup : m'.status = 0 → m'.waiting.Nonempty → m'.notified.Nonempty) :
    Invariant (c.after i m' l') where
  held := by
    have hheld := h.held.change rfl hchange
    have hholds : (fun j => ((c.after i m' l').thread j).holds) =
        Function.update (fun j => (c.thread j).holds) i l'.holds := by
      funext j
      by_cases hj : j = i
      · subst hj
        rw [Threads.after_thread_self, Function.update_self]
      · rw [Threads.after_thread_of_ne _ hj, Function.update_of_ne hj]
    rw [hholds]
    exact hheld
  pending j op hphase := by
    by_cases hj : j = i
    · subst hj
      rw [Threads.after_thread_self] at hphase ⊢
      exact hpending op hphase
    · rw [Threads.after_thread_of_ne _ hj] at hphase ⊢
      obtain ⟨hpermitted, hnot⟩ := h.pending j op hphase
      exact ⟨hpermitted, fun hop => hchange.writer_ne hj (hnot hop)⟩
  waits j hj := by
    by_cases hji : j = i
    · subst hji
      rw [Threads.after_thread_self]
      exact hself hj
    · rw [Threads.after_thread_of_ne _ hji]
      exact h.waits j (hothers j hji hj)
  wakeup := hwakeup

omit [DecidableEq ι] in
/-- A thread that is not waiting for the monitor is not among those in it. -/
theorem Invariant.not_inMonitor (h : Invariant c)
    (hphase : ∀ op, (c.thread i).phase ≠ .inWait op) : ¬ InMonitor c.shared i := by
  intro hin
  obtain ⟨op, hop⟩ := h.waits i hin
  exact hphase op hop

omit [DecidableEq ι] in
/-- A thread that goes on inside the monitor is not in its wait set. -/
theorem Invariant.not_waiting (h : Invariant c) {op : Operation}
    (henter : CanEnter i c.shared (c.thread i) op) : i ∉ c.shared.waiting := by
  obtain hphase | ⟨-, hnot⟩ := henter
  · refine fun hmem => h.not_inMonitor (fun op' hop => ?_) (.inl hmem)
    rw [hphase] at hop
    cases hop
  · exact hnot

theorem Invariant.step_monitor (h : Invariant c) {op : Operation} {outcome : Outcome}
    {notification : Notification} {m₁ m₂ : Mutex ι}
    (henter : CanEnter i c.shared (c.thread i) op)
    (hinside : insideMonitor i (c.shared.enter i) op = (m₁, outcome, notification))
    (hnotify : Delivers notification m₁ m₂) :
    Invariant (c.after i (m₂.leave i outcome) ((c.thread i).leave op outcome)) := by
  have hpending := h.pending i op (henter.imp id And.left)
  have hnot := h.not_waiting henter
  obtain ⟨hchange, hwaiting, hnotified, hwait, hzero⟩ :=
    insideMonitor_spec (m := c.shared.enter i) hpending h.held.writer_iff hinside
  have hbefore (j : ι) (hj : InMonitor m₂ j) : j ≠ i ∧ InMonitor c.shared j := by
    have hj := hnotify.mem_before hj
    rw [hwaiting, hnotified] at hj
    obtain hj | hj := hj
    · exact ⟨fun heq => hnot (heq ▸ hj), .inl hj⟩
    · exact ⟨Finset.ne_of_mem_erase hj, .inr (Finset.mem_of_mem_erase hj)⟩
  have hleave (j : ι) (hj : InMonitor (m₂.leave i outcome) j) :
      InMonitor m₂ j ∨ j = i ∧ outcome = .waits := by
    obtain hj | hj := hj
    · exact (mem_leave hj).imp .inl id
    · rw [leave_notified] at hj
      exact .inl (.inr hj)
  refine h.after ?_ (fun op' hphase => ?_) (fun hin => ?_) (fun j hj hin => ?_)
    fun hstatus hwaits => ?_
  · unfold Changes
    rw [leave_status, leave_writer, hnotify.status_eq, hnotify.writer_eq]
    exact hchange
  · cases outcome with
    | returns => exact absurd hphase (by simp [Local.leave])
    | waits =>
      obtain rfl : op = op' := by simpa [Local.leave] using hphase
      refine ⟨hpending.permitted, fun hop => ?_⟩
      rw [leave_writer, hnotify.writer_eq, (hwait rfl).1]
      exact hpending.not_writer hop
  · obtain hin | ⟨-, rfl⟩ := hleave i hin
    · exact absurd rfl (hbefore i hin).1
    · exact ⟨op, rfl⟩
  · obtain hin | ⟨rfl, -⟩ := hleave j hin
    · exact (hbefore j hin).2
    · exact absurd rfl hj
  · rw [leave_status, hnotify.status_eq] at hstatus
    rw [leave_notified]
    refine hnotify.notified_nonempty (hzero hstatus) ?_
    obtain ⟨j, hj⟩ := hwaits
    obtain hj | ⟨-, hout⟩ := mem_leave hj
    · exact ⟨j, hj⟩
    · obtain ⟨rfl, hne⟩ := hwait hout
      exact absurd hstatus hne

theorem Invariant.step (h : Invariant c) (hstep : Step i c.shared (c.thread i) m' l') :
    Invariant (c.after i m' l') := by
  cases hstep with
  | asWriter hphase huse hbefore =>
    obtain ⟨hchange, hwaiting, hnotified, hw⟩ := beforeMonitor_spec huse hbefore
    have hnot : ¬ InMonitor c.shared i := h.not_inMonitor fun op hop => by
      rw [hphase] at hop
      cases hop
    have hsame (j : ι) : InMonitor m' j ↔ InMonitor c.shared j := by
      rw [InMonitor, InMonitor, hwaiting, hnotified]
    refine h.after hchange (fun op hop => ?_) (fun hin => absurd ((hsame i).1 hin) hnot)
      (fun j _ hin => (hsame j).1 hin) fun hzero => ?_
    · simp [hphase] at hop
    · have hneg := (h.held.change rfl hchange).not_writing hzero.ge
      rw [hw] at hneg
      cases hneg.1
  | call op hphase huse hbefore =>
    have hnot : ¬ InMonitor c.shared i := h.not_inMonitor fun op hop => by
      rw [hphase] at hop
      cases hop
    refine h.after (.none _ _ _) (fun op' hop => ?_) (fun hin => absurd hin hnot)
      (fun _ _ hin => hin) h.wakeup
    obtain rfl : op = op' := by simpa using hop
    refine ⟨huse, fun hne hw => ?_⟩
    cases op <;> simp [beforeMonitor, hw] at hbefore hne
  | monitor henter hinside hnotify => exact h.step_monitor henter hinside hnotify
  | spurious hi =>
    have hsub (j : ι) (hj : InMonitor { c.shared with waiting := c.shared.waiting.erase i } j) :
        InMonitor c.shared j := hj.imp Finset.mem_of_mem_erase id
    refine h.after (.none _ _ _) (h.pending i) (fun _ => h.waits i (.inl hi))
      (fun j _ hin => hsub j hin) fun hzero hwaits => h.wakeup hzero ?_
    exact hwaits.mono (Finset.erase_subset _ _)

omit [DecidableEq ι] in
theorem invariant_start : Invariant (start : Threads ι (Mutex ι) Local) where
  held := by
    have h := @Held.reading ι _ (fun _ => []) (fun _ => List.not_mem_nil)
    simpa [start] using h
  pending _ _ h := by cases h with | _ h => cases h
  waits _ h := by cases h with | _ h => cases h
  wakeup _ h := absurd h Finset.not_nonempty_empty

theorem Invariant.reaches (h : Threads.Reaches Step start c) : Invariant c :=
  Threads.Reaches.invariant (fun _ _ _ _ hinv hstep => hinv.step hstep) h invariant_start

/-- `try_enter_write` would block exactly when another thread holds the mutex. -/
theorem Invariant.wouldBlock_iff (h : Invariant c) {result : Result}
    (hreturns : Returns i c.shared (c.thread i) .tryEnterWrite result) :
    result = .wouldBlock ↔ ∃ j, j ≠ i ∧ (c.thread j).holds ≠ [] := by
  cases hreturns with
  | asWriter hphase huse hbefore =>
    simp only [beforeMonitor] at hbefore
    split at hbefore
    · next hw =>
      obtain ⟨-, hothers, -⟩ := h.held.bottom hw
      refine ⟨fun hblock => (by cases hblock), fun ⟨j, hj, hne⟩ => absurd (hothers j hj) hne⟩
    · cases hbefore
  | monitor henter hinside =>
    have hpending := h.pending i _ (henter.imp id And.left)
    have hnil : (c.thread i).holds = [] := by
      refine hpending.permitted.resolve_right fun hmem => ?_
      exact hpending.not_writer (by decide) (h.held.writer_iff.2 hmem)
    simp only [insideMonitor] at hinside
    split at hinside <;> cases hinside
    · next hne =>
      obtain ⟨j, hj⟩ := h.held.exists_holds hne
      exact ⟨fun _ => ⟨j, fun heq => hj (heq ▸ hnil), hj⟩, fun _ => rfl⟩
    · next hzero =>
      have hall := h.held.nil_of_status_zero (not_not.1 hzero)
      exact ⟨fun hblock => (by cases hblock), fun ⟨j, _, hne⟩ => absurd (hall j) hne⟩

/-- Whatever the interleaving: a writer is alone, the status is the number of read holds or
minus the depth of the writer, `try_enter_write` would block exactly when another thread
holds the mutex, and when a thread waits for a free mutex a notified one is on its way. -/
theorem rwmutex_excludes_and_wakes (h : Threads.Reaches Step start c) :
    (∀ i j, .write ∈ (c.thread i).holds → j ≠ i → (c.thread j).holds = []) ∧
      (∀ i, .write ∈ (c.thread i).holds →
        c.shared.status = -((c.thread i).holds.count .write : ℕ)) ∧
      ((∀ i, .write ∉ (c.thread i).holds) →
        c.shared.status = (∑ i, (c.thread i).holds.count .read : ℕ)) ∧
      (∀ i result, Returns i c.shared (c.thread i) .tryEnterWrite result →
        (result = .wouldBlock ↔ ∃ j, j ≠ i ∧ (c.thread j).holds ≠ [])) ∧
      (c.shared.status = 0 → c.shared.waiting.Nonempty →
        ∃ i ∈ c.shared.notified, ∃ op, (c.thread i).phase = .inWait op) := by
  have hinv := Invariant.reaches h
  refine ⟨fun i j hi hj => ?_, fun i hi => ?_, fun hread => ?_,
    fun i result hreturns => hinv.wouldBlock_iff hreturns, fun hzero hwaits => ?_⟩
  · exact (hinv.held.bottom (hinv.held.writer_iff.2 hi)).2.1 j hj
  · exact (hinv.held.bottom (hinv.held.writer_iff.2 hi)).2.2
  · have hnone : c.shared.writer = none := by
      by_contra hsome
      obtain ⟨w, hw⟩ := Option.ne_none_iff_exists'.1 hsome
      exact hread w (hinv.held.writer_iff.1 hw)
    have hheld := hinv.held
    rw [hnone] at hheld
    generalize c.shared.status = status at hheld ⊢
    cases hheld
    rfl
  · obtain ⟨i, hi⟩ := hinv.wakeup hzero hwaits
    exact ⟨i, hi, hinv.waits i (.inr hi)⟩

end Configurations

/-- A writer is inside and a reader waits. -/
theorem rwmutex_excludes_and_wakes_writerAndWaiting :
    ∃ c : Threads (Fin 2) (Mutex (Fin 2)) Local, Threads.Reaches Step start c ∧
      c.shared.status = -1 ∧ (c.thread 0).holds = [.write] ∧
      (c.thread 1).phase = .inWait .enterRead ∧ (c.thread 1).holds = [] := by
  have h1 : Threads.Reaches Step (start : Threads (Fin 2) (Mutex (Fin 2)) Local) _ :=
    Threads.Reaches.one 0 (.call .enterWrite rfl (.inl rfl) rfl)
  have h2 := h1.tail (.of 0 (.monitor (.inl rfl) rfl (.none _)))
  have h3 := h2.tail (.of 1 (.call .enterRead rfl trivial rfl))
  have h4 := h3.tail (.of 1 (.monitor (.inl rfl) rfl (.none _)))
  refine ⟨_, h4, rfl, rfl, rfl, ?_⟩
  exact (rwmutex_excludes_and_wakes h4).1 0 1 (List.mem_singleton_self _) (by decide)

end OMR.Thread.RWMutex
