import OMR.GC.SublistPoolAllocate

/-!
# Fragments of a sublist pool

A fragment is a range of slots of one puddle. The ranges that are still open do not meet,
and their slots are in use but empty.
-/

namespace OMR.GC

variable {P E T : Type*}

/-- The fragment has slots that it can give. -/
def SublistFragment.Open (fragment : SublistFragment P) : Prop :=
  fragment.fragmentCurrent < fragment.fragmentTop

namespace SublistPool

/-- The slots that fragments can still give are in use, empty, and nobody else's. -/
structure Fragments (pool : SublistPool P E) (fragment : T → SublistFragment P) : Prop where
  size : ∀ t, ∃ slots, 0 < slots ∧ (fragment t).fragmentSize = slotSize * slots
  inUse : ∀ t, (fragment t).Open → ∃ p ∈ pool.allocated, (fragment t).puddle = some p ∧
    (fragment t).fragmentTop ≤ (pool.puddle p).listCurrent ∧
    ∀ i, (fragment t).fragmentCurrent ≤ i → i < (fragment t).fragmentTop →
      (pool.puddle p).store.getD i none = none
  disjoint : ∀ t t', t ≠ t' → (fragment t).Open → (fragment t').Open →
    (fragment t).puddle = (fragment t').puddle →
    (fragment t).fragmentTop ≤ (fragment t').fragmentCurrent ∨
      (fragment t').fragmentTop ≤ (fragment t).fragmentCurrent

namespace Fragments

variable {pool pool' : SublistPool P E} {fragment : T → SublistFragment P} {others : P → Prop}
  {p : P} {current top : ℕ}

/-- The puddles that hold fragments keep those slots. -/
theorem congr (h : Fragments pool fragment)
    (hkept : ∀ p ∈ pool.allocated, (∃ t, (fragment t).Open ∧ (fragment t).puddle = some p) →
      p ∈ pool'.allocated ∧ (pool.puddle p).listCurrent ≤ (pool'.puddle p).listCurrent ∧
      (pool'.puddle p).store = (pool.puddle p).store) : Fragments pool' fragment where
  size := h.size
  inUse t hopen := by
    obtain ⟨p, hp, hpuddle, hle, hclear⟩ := h.inUse t hopen
    obtain ⟨hp', hle', hstore⟩ := hkept p hp ⟨t, hopen, hpuddle⟩
    refine ⟨p, hp', hpuddle, hle.trans hle', ?_⟩
    rwa [hstore]
  disjoint := h.disjoint

/-- Slots that are taken into use belong to no fragment yet. -/
theorem granted (h : Fragments pool fragment) (hgranted : Granted pool pool' others p current top) :
    Fragments pool' fragment :=
  h.congr fun q hq _ => by
    refine ⟨hgranted.subset hq, ?_⟩
    by_cases heq : q = p
    · subst heq
      obtain ⟨hcurrent, hstore⟩ := hgranted.same hq
      rw [hcurrent, hgranted.listCurrent]
      exact ⟨hgranted.lt.le, hstore⟩
    · rw [hgranted.puddle q hq heq]
      exact ⟨le_rfl, rfl⟩

section Store

variable [DecidableEq P]

/-- An entry is stored in a slot that no fragment can give any more. -/
theorem storeEntry (h : Fragments pool fragment) {slot : ℕ} (entry : E)
    (hslot : ∀ t, (fragment t).Open → (fragment t).puddle = some p →
      slot < (fragment t).fragmentCurrent ∨ (fragment t).fragmentTop ≤ slot) :
    Fragments (pool.storeEntry (p, slot) entry) fragment where
  size := h.size
  inUse t hopen := by
    obtain ⟨q, hq, hpuddle, hle, hclear⟩ := h.inUse t hopen
    refine ⟨q, hq, hpuddle, ?_⟩
    by_cases heq : q = p
    · subst heq
      have hself : (pool.storeEntry (q, slot) entry).puddle q =
          (pool.puddle q).setSlot slot (some entry) := Function.update_self ..
      rw [hself]
      refine ⟨hle, fun i hi hlt => ?_⟩
      have hne : slot ≠ i := by
        rcases hslot t hopen hpuddle with hbefore | hafter
        · omega
        · omega
      have := hclear i hi hlt
      rw [List.getD_eq_getElem?_getD] at this ⊢
      rwa [SublistPuddle.setSlot, List.getElem?_set_ne hne]
    · have hother : (pool.storeEntry (p, slot) entry).puddle q = pool.puddle q :=
        Function.update_of_ne heq ..
      rw [hother]
      exact ⟨hle, hclear⟩
  disjoint := h.disjoint

end Store

variable [DecidableEq T]

theorem update (h : Fragments pool fragment) (t : T) {new : SublistFragment P}
    (hsize : new.fragmentSize = (fragment t).fragmentSize)
    (hinUse : new.Open → ∃ p ∈ pool.allocated, new.puddle = some p ∧
      new.fragmentTop ≤ (pool.puddle p).listCurrent ∧
      ∀ i, new.fragmentCurrent ≤ i → i < new.fragmentTop →
        (pool.puddle p).store.getD i none = none)
    (hdisjoint : ∀ t', t' ≠ t → new.Open → (fragment t').Open → new.puddle = (fragment t').puddle →
      new.fragmentTop ≤ (fragment t').fragmentCurrent ∨
        (fragment t').fragmentTop ≤ new.fragmentCurrent) :
    Fragments pool (Function.update fragment t new) where
  size t' := by
    by_cases heq : t' = t
    · subst heq
      simpa [hsize] using h.size t'
    · simpa [heq] using h.size t'
  inUse t' hopen := by
    by_cases heq : t' = t
    · subst heq
      rw [Function.update_self] at hopen ⊢
      exact hinUse hopen
    · rw [Function.update_of_ne heq] at hopen ⊢
      exact h.inUse t' hopen
  disjoint t₁ t₂ hne hopen₁ hopen₂ hpuddle := by
    by_cases heq₁ : t₁ = t
    · subst heq₁
      rw [Function.update_self] at hopen₁ hpuddle ⊢
      rw [Function.update_of_ne hne.symm] at hopen₂ hpuddle ⊢
      exact hdisjoint t₂ hne.symm hopen₁ hopen₂ hpuddle
    · rw [Function.update_of_ne heq₁] at hopen₁ hpuddle ⊢
      by_cases heq₂ : t₂ = t
      · subst heq₂
        rw [Function.update_self] at hopen₂ hpuddle ⊢
        exact (hdisjoint t₁ hne hopen₂ hopen₁ hpuddle.symm).symm
      · rw [Function.update_of_ne heq₂] at hopen₂ hpuddle ⊢
        exact h.disjoint t₁ t₂ hne hopen₁ hopen₂ hpuddle

/-- A fragment that is used up claims nothing. -/
theorem close (h : Fragments pool fragment) (t : T) {new : SublistFragment P}
    (hsize : new.fragmentSize = (fragment t).fragmentSize) (hclosed : ¬ new.Open) :
    Fragments pool (Function.update fragment t new) :=
  h.update t hsize (fun hopen => absurd hopen hclosed) fun _ _ hopen => absurd hopen hclosed

/-- The slots are given to a fragment. -/
theorem grant (h : Fragments pool fragment) (hgranted : Granted pool pool' others p current top)
    (t : T) {new : SublistFragment P} (hsize : new.fragmentSize = (fragment t).fragmentSize)
    (hpuddle : new.puddle = some p) (hcurrent : new.fragmentCurrent = current)
    (htop : new.fragmentTop = top) : Fragments pool' (Function.update fragment t new) := by
  refine (h.granted hgranted).update t hsize (fun _ => ⟨p, hgranted.mem, hpuddle, ?_, ?_⟩) ?_
  · rw [htop, hgranted.listCurrent]
  · exact fun i hi _ => hgranted.clear i (hcurrent ▸ hi)
  · intro t' _ _ hopen hsame
    obtain ⟨q, hq, hq', hle, -⟩ := h.inUse t' hopen
    have heq : q = p := Option.some.inj (hq'.symm.trans (hsame.symm.trans hpuddle))
    subst heq
    right
    rw [hcurrent, ← (hgranted.same hq).1]
    exact hle

/-- A fragment gives its next slot, and an entry is stored there. -/
theorem take [DecidableEq P] (h : Fragments pool fragment) {t : T} (hopen : (fragment t).Open)
    (hpuddle : (fragment t).puddle = some p) (entry : E) :
    Fragments (pool.storeEntry (p, (fragment t).fragmentCurrent) entry)
      (Function.update fragment t (takeSlot (fragment t)).2) := by
  obtain ⟨q, hq, hq', hle, hclear⟩ := h.inUse t hopen
  have hlt : (fragment t).fragmentCurrent < (fragment t).fragmentTop := hopen
  have hupdate : Fragments pool (Function.update fragment t (takeSlot (fragment t)).2) := by
    refine h.update t rfl ?_ ?_
    · exact fun _ => ⟨q, hq, hq', hle, fun i hi => hclear i (Nat.le_of_succ_le hi)⟩
    · intro t' hne _ hopen' hsame
      rcases h.disjoint t t' hne.symm hopen hopen' hsame with hbefore | hafter
      · exact .inl hbefore
      · exact .inr (hafter.trans (Nat.le_succ _))
  refine hupdate.storeEntry entry ?_
  intro t' hopen' hpuddle'
  by_cases heq : t' = t
  · subst heq
    rw [Function.update_self]
    exact .inl (Nat.lt_succ_self _)
  · rw [Function.update_of_ne heq] at hopen' hpuddle' ⊢
    rcases h.disjoint t t' (Ne.symm heq) hopen hopen' (hpuddle.trans hpuddle'.symm) with
      hbefore | hafter
    · exact .inl (hlt.trans_le hbefore)
    · exact .inr hafter

end Fragments

end SublistPool

end OMR.GC
