import Mathlib.Tactic

/-!
# Interleaved threads

Threads with a local state each share one state and take atomic steps, one thread at a
time and in any order. A run is any sequence of such steps, and an invariant of single
steps holds in every configuration that a run reaches.
-/

namespace OMR.Lib

/-- The shared state together with the local state of each thread. -/
@[ext] structure Threads (ι σ τ : Type*) where
  shared : σ
  thread : ι → τ

namespace Threads

variable {ι σ τ : Type*} [DecidableEq ι]

/-- Thread `i` takes the step to `s'` and `t'`, and the other threads stay as they are. -/
def after (c : Threads ι σ τ) (i : ι) (s' : σ) (t' : τ) : Threads ι σ τ :=
  ⟨s', Function.update c.thread i t'⟩

@[simp] theorem after_shared (c : Threads ι σ τ) (i : ι) (s' : σ) (t' : τ) :
    (c.after i s' t').shared = s' := rfl

@[simp] theorem after_thread_self (c : Threads ι σ τ) (i : ι) (s' : σ) (t' : τ) :
    (c.after i s' t').thread i = t' := Function.update_self ..

theorem after_thread_of_ne (c : Threads ι σ τ) {i j : ι} (h : j ≠ i) (s' : σ) (t' : τ) :
    (c.after i s' t').thread j = c.thread j := Function.update_of_ne h ..

/-- Any one thread takes one of its atomic steps. -/
inductive Step (step : ι → σ → τ → σ → τ → Prop) : Threads ι σ τ → Threads ι σ τ → Prop
  | of {c : Threads ι σ τ} (i : ι) {s' : σ} {t' : τ}
      (h : step i c.shared (c.thread i) s' t') : Step step c (c.after i s' t')

variable {step : ι → σ → τ → σ → τ → Prop} {c c' : Threads ι σ τ}

/-- The configurations that the threads can get to from `c`. -/
def Reaches (step : ι → σ → τ → σ → τ → Prop) : Threads ι σ τ → Threads ι σ τ → Prop :=
  Relation.ReflTransGen (Step step)

theorem Reaches.invariant {I : Threads ι σ τ → Prop}
    (hstep : ∀ (c : Threads ι σ τ) (i : ι) (s' : σ) (t' : τ),
      I c → step i c.shared (c.thread i) s' t' → I (c.after i s' t'))
    (h : Reaches step c c') (h0 : I c) : I c' := by
  induction h with
  | refl => exact h0
  | tail _ hlast ih =>
    cases hlast with
    | of i h => exact hstep _ i _ _ ih h

theorem Reaches.one (i : ι) {s' : σ} {t' : τ} (h : step i c.shared (c.thread i) s' t') :
    Reaches step c (c.after i s' t') :=
  Relation.ReflTransGen.single (.of i h)

end Threads

section Counting

variable {ι τ : Type*} [Fintype ι]

/-- How many threads are in a local state that `p` accepts. -/
def threadCount (p : τ → Bool) (thread : ι → τ) : ℕ :=
  (Finset.univ.filter fun i => p (thread i) = true).card

theorem threadCount_eq_zero {p : τ → Bool} {thread : ι → τ} :
    threadCount p thread = 0 ↔ ∀ i, p (thread i) = false := by
  simp [threadCount, Finset.filter_eq_empty_iff]

theorem threadCount_pos {p : τ → Bool} {thread : ι → τ} {i : ι} (h : p (thread i) = true) :
    0 < threadCount p thread :=
  Finset.card_pos.2 ⟨i, by simp [h]⟩

theorem threadCount_le_card {p : τ → Bool} {thread : ι → τ} {s : Finset ι}
    (h : ∀ i, p (thread i) = true → i ∈ s) : threadCount p thread ≤ s.card := by
  apply Finset.card_le_card
  intro i hi
  exact h i (Finset.mem_filter.1 hi).2

/-- One that could be counted and is not makes the bound strict. -/
theorem threadCount_lt_card {p : τ → Bool} {thread : ι → τ} {s : Finset ι} {i : ι}
    (h : ∀ i, p (thread i) = true → i ∈ s) (hi : i ∈ s) (hnot : p (thread i) = false) :
    threadCount p thread < s.card := by
  apply Finset.card_lt_card
  refine ⟨fun j hj => h j (Finset.mem_filter.1 hj).2, fun hsub => ?_⟩
  have hmem := (Finset.mem_filter.1 (hsub hi)).2
  rw [hnot] at hmem
  cases hmem

/-- A thread that is not counted makes the count smaller than the number of threads. -/
theorem threadCount_lt_of_not {p : τ → Bool} {thread : ι → τ} {i : ι} (h : p (thread i) = false) :
    threadCount p thread < Fintype.card ι := by
  rw [← Finset.card_univ]
  exact threadCount_lt_card (fun j _ => Finset.mem_univ j) (Finset.mem_univ i) h

theorem accepts_of_threadCount_eq {p : τ → Bool} {thread : ι → τ}
    (h : threadCount p thread = Fintype.card ι) (i : ι) : p (thread i) = true := by
  by_contra hnot
  exact absurd h (threadCount_lt_of_not (Bool.not_eq_true _ ▸ hnot)).ne

/-- If all threads but one can be counted and that one is not, all others are. -/
theorem accepts_of_threadCount_add_one {p : τ → Bool} {thread : ι → τ} {i j : ι}
    (hcount : threadCount p thread + 1 = Fintype.card ι) (hi : p (thread i) = false)
    (hj : j ≠ i) : p (thread j) = true := by
  by_contra hnot
  have hsplit := Finset.card_filter_add_card_filter_not (s := Finset.univ)
    fun k => p (thread k) = true
  have hone : (Finset.univ.filter fun k => ¬ p (thread k) = true).card = 1 := by
    rw [Finset.card_univ, ← hcount] at hsplit
    exact Nat.add_left_cancel hsplit
  obtain ⟨k, hk⟩ := Finset.card_eq_one.1 hone
  have hi' : i ∈ ({k} : Finset ι) := hk ▸ by simp [hi]
  have hj' : j ∈ ({k} : Finset ι) := hk ▸ by simp [hnot]
  rw [Finset.mem_singleton] at hi' hj'
  exact hj (hj'.trans hi'.symm)

/-- What one thread's step does to the count. -/
theorem threadCount_update [DecidableEq ι] (p : τ → Bool) (thread : ι → τ) (i : ι) (t : τ) :
    threadCount p (Function.update thread i t) + (p (thread i)).toNat =
      threadCount p thread + (p t).toNat := by
  have hsplit (f : ι → τ) : threadCount p f =
      (p (f i)).toNat + ((Finset.univ.erase i).filter fun j => p (f j) = true).card := by
    rw [threadCount, Finset.card_filter, ← Finset.add_sum_erase _ _ (Finset.mem_univ i),
      Finset.card_filter]
    cases p (f i) <;> rfl
  have hrest : ((Finset.univ.erase i).filter fun j => p (Function.update thread i t j) = true) =
      (Finset.univ.erase i).filter fun j => p (thread j) = true := by
    refine Finset.filter_congr fun j hj => ?_
    rw [Function.update_of_ne (Finset.ne_of_mem_erase hj)]
  rw [hsplit, hsplit thread, hrest, Function.update_self]
  omega

/-- What one thread's step does to a sum over all threads. -/
theorem sum_update [DecidableEq ι] (f : τ → ℕ) (thread : ι → τ) (i : ι) (t : τ) :
    (∑ j, f (Function.update thread i t j)) + f (thread i) = (∑ j, f (thread j)) + f t := by
  have hrest : ∑ j ∈ Finset.univ.erase i, f (Function.update thread i t j) =
      ∑ j ∈ Finset.univ.erase i, f (thread j) := by
    refine Finset.sum_congr rfl fun j hj => ?_
    rw [Function.update_of_ne (Finset.ne_of_mem_erase hj)]
  rw [← Finset.add_sum_erase _ _ (Finset.mem_univ i),
    ← Finset.add_sum_erase _ (fun j => f (thread j)) (Finset.mem_univ i), hrest,
    Function.update_self]
  omega

end Counting

/-- Where a step from every configuration but the last ones makes the weight of a thread
smaller, a run leads to one of the last. -/
theorem Threads.exists_reaches {ι σ τ : Type*} [Fintype ι] [DecidableEq ι]
    {step : ι → σ → τ → σ → τ → Prop} {I last : Threads ι σ τ → Prop} (weight : τ → ℕ)
    (hstep : ∀ (c : Threads ι σ τ) (i : ι) (s' : σ) (t' : τ),
      I c → step i c.shared (c.thread i) s' t' → I (c.after i s' t'))
    (hgo : ∀ c, I c → last c ∨ ∃ i s' t', step i c.shared (c.thread i) s' t' ∧
      weight t' < weight (c.thread i)) {c : Threads ι σ τ} (h : I c) :
    ∃ c', Reaches step c c' ∧ I c' ∧ last c' := by
  induction hn : ∑ j, weight (c.thread j) using Nat.strong_induction_on generalizing c with
  | _ n ih =>
    obtain hlast | ⟨i, s', t', hi, hlt⟩ := hgo c h
    · exact ⟨c, .refl, h, hlast⟩
    · have hsum : ∑ j, weight ((c.after i s' t').thread j) + weight (c.thread i) = _ :=
        sum_update weight c.thread i t'
      obtain ⟨c', hreach, hc'⟩ := ih _ (by omega) (hstep c i s' t' h hi) rfl
      exact ⟨c', .head (.of i hi) hreach, hc'⟩

end OMR.Lib
