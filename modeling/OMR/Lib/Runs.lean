import Mathlib.Tactic

/-!
# Runs of operations

A run applies operations one after the other, each of which may fail. A property of single
operations is asked of every operation of a run, and an invariant carries an equivalence
between two such properties from one operation to the whole run.
-/

namespace OMR.Lib

variable {σ ο : Type*} {exec : σ → ο → Option σ} {inv : σ → Prop}

/-- Every operation of the run meets the property in the state it is applied to. -/
def EveryStep (exec : σ → ο → Option σ) (p : σ → ο → Prop) : σ → List ο → Prop
  | _, [] => True
  | s, op :: ops => p s op ∧ ∀ s', exec s op = some s' → EveryStep exec p s' ops

/-- Every operation of the run returns, with what is asked of the states around it. -/
def EveryStepKeeps (exec : σ → ο → Option σ) (kept : σ → ο → σ → Prop) : σ → List ο → Prop
  | _, [] => True
  | s, op :: ops => ∃ s', exec s op = some s' ∧ kept s op s' ∧ EveryStepKeeps exec kept s' ops

/-- A property that can be decided at one operation can be decided along a run. -/
instance EveryStep.decidable {p : σ → ο → Prop} [∀ s op, Decidable (p s op)] :
    ∀ s ops, Decidable (EveryStep exec p s ops)
  | _, [] => isTrue trivial
  | s, op :: ops =>
    match h : exec s op with
    | none => decidable_of_iff (p s op)
        ⟨fun hp => ⟨hp, fun s' h' => by rw [h] at h'; cases h'⟩, And.left⟩
    | some s' =>
      have : Decidable (EveryStep exec p s' ops) := EveryStep.decidable s' ops
      decidable_of_iff (p s op ∧ EveryStep exec p s' ops)
        ⟨fun ⟨hp, hrest⟩ => ⟨hp, fun s'' h' => Option.some.inj (h.symm.trans h') ▸ hrest⟩,
          fun ⟨hp, hrest⟩ => ⟨hp, hrest s' h⟩⟩

instance EveryStepKeeps.decidable {kept : σ → ο → σ → Prop} [∀ s op s', Decidable (kept s op s')] :
    ∀ s ops, Decidable (EveryStepKeeps exec kept s ops)
  | _, [] => isTrue trivial
  | s, op :: ops =>
    match h : exec s op with
    | none => isFalse fun ⟨s', h', _⟩ => by rw [h] at h'; cases h'
    | some s' =>
      have : Decidable (EveryStepKeeps exec kept s' ops) := EveryStepKeeps.decidable s' ops
      decidable_of_iff (kept s op s' ∧ EveryStepKeeps exec kept s' ops)
        ⟨fun hkept => ⟨s', h, hkept⟩,
          fun ⟨s'', h', hkept⟩ => Option.some.inj (h.symm.trans h') ▸ hkept⟩

/-- Where every operation is permitted, so is every run. -/
theorem everyStep_true (s : σ) (ops : List ο) : EveryStep exec (fun _ _ => True) s ops := by
  induction ops generalizing s with
  | nil => trivial
  | cons op ops ih => exact ⟨trivial, fun s' _ => ih s'⟩

/-- Where the invariant holds, one operation keeps what is asked exactly if it meets the
condition, and then the invariant holds again. The same is true of runs. -/
theorem everyStepKeeps_iff {permitted meets : σ → ο → Prop} {kept : σ → ο → σ → Prop}
    (hiff : ∀ s op, inv s → permitted s op →
      ((∃ s', exec s op = some s' ∧ kept s op s') ↔ meets s op))
    (hinv : ∀ s op s', inv s → permitted s op → meets s op → exec s op = some s' → inv s')
    {s : σ} (h : inv s) {ops : List ο} (hops : EveryStep exec permitted s ops) :
    EveryStepKeeps exec kept s ops ↔ EveryStep exec meets s ops := by
  induction ops generalizing s with
  | nil => exact Iff.rfl
  | cons op ops ih =>
    obtain ⟨hop, hops⟩ := hops
    constructor
    · rintro ⟨s', hexec, hkept, hrun⟩
      have hmeets := (hiff s op h hop).1 ⟨s', hexec, hkept⟩
      refine ⟨hmeets, fun s'' hexec' => ?_⟩
      obtain rfl := Option.some.inj (hexec.symm.trans hexec')
      exact (ih (hinv s op s' h hop hmeets hexec) (hops s' hexec)).1 hrun
    · rintro ⟨hmeets, hrun⟩
      obtain ⟨s', hexec, hkept⟩ := (hiff s op h hop).2 hmeets
      exact ⟨s', hexec, hkept,
        (ih (hinv s op s' h hop hmeets hexec) (hops s' hexec)).2 (hrun s' hexec)⟩

end OMR.Lib
