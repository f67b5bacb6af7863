import Mathlib.Tactic

/-!
# Allocation hints

The hint cache of an address-ordered free list (`addHint`, `findHint`,
`removeHint`, `updateHint`, `clearHints`). A hint says that no entry up to the
address `heapFreeHeader` is larger than `size`, so that a search for more may
begin there. A pool owns eight hints; those not in the active list are spare and
carry no information, so that only their number is kept.
-/

namespace OMR.GC

/-- `J9ModronAllocateHint`. -/
structure AllocateHint where
  size : ℕ
  heapFreeHeader : ℕ
  lru : ℕ
deriving DecidableEq, Repr

/-- The hint fields of a pool: the active list, the number of inactive hints and
the `_hintLru` counter. -/
structure HintCache where
  hintActive : List AllocateHint
  hintInactive : ℕ
  hintLru : ℕ
deriving DecidableEq, Repr

namespace HintCache

/-- `HINT_ELEMENT_COUNT` inactive hints, linked up when a pool is made. -/
def initHints : HintCache := ⟨[], 8, 0⟩

/-- `clearHints`. -/
def clearHints (c : HintCache) : HintCache :=
  ⟨[], c.hintInactive + c.hintActive.length, 1⟩

/-- The hints that a new hint for `freeEntry` overrides. -/
def overrides (freeEntry lookupSize : ℕ) (hint : AllocateHint) : Bool :=
  if freeEntry < hint.heapFreeHeader then lookupSize ≥ hint.size
  else if freeEntry = hint.heapFreeHeader then lookupSize < hint.size
  else lookupSize ≤ hint.size

/-- The first loop of `addHint`: the hints that stay, the number of those removed,
and whether the loop met a hint that makes the new one redundant. -/
def removeOverridden (freeEntry lookupSize : ℕ) :
    List AllocateHint → List AllocateHint × ℕ × Bool
  | [] => ([], 0, false)
  | hint :: rest =>
    if overrides freeEntry lookupSize hint then
      let (kept, removed, redundant) := removeOverridden freeEntry lookupSize rest
      (kept, removed + 1, redundant)
    else if freeEntry = hint.heapFreeHeader then
      (hint :: rest, 0, true)
    else
      let (kept, removed, redundant) := removeOverridden freeEntry lookupSize rest
      (hint :: kept, removed, redundant)

/-- The index of the hint with the smallest `lru`; `best` is the one found so far
and `index` the position of the list. -/
def oldestHint (bestIndex : ℕ) (best : AllocateHint) (index : ℕ) : List AllocateHint → ℕ
  | [] => bestIndex
  | current :: rest =>
    if best.lru > current.lru then oldestHint index current (index + 1) rest
    else oldestHint bestIndex best (index + 1) rest

/-- `addHint`. A new hint is a spare one or else takes the place of the oldest. -/
def addHint (c : HintCache) (freeEntry lookupSize : ℕ) : HintCache :=
  let (active, removed, redundant) := removeOverridden freeEntry lookupSize c.hintActive
  let inactive := c.hintInactive + removed
  if redundant then
    { c with hintActive := active, hintInactive := inactive }
  else
    let hint := ⟨lookupSize, freeEntry, c.hintLru⟩
    match inactive, active with
    | spare + 1, active => ⟨hint :: active, spare, c.hintLru + 1⟩
    -- a pool has eight hints, so that active and inactive list are never both empty
    | 0, [] => { c with hintActive := [], hintInactive := 0 }
    | 0, first :: rest =>
      ⟨(first :: rest).set (oldestHint 0 first 1 rest) hint, 0, c.hintLru + 1⟩

/-- The search of `findHint` among the hints that are not stale: the first of the
largest hints below the request. -/
def bestHint (lookupSize : ℕ) (best : Option (ℕ × AllocateHint)) (index : ℕ) :
    List AllocateHint → Option (ℕ × AllocateHint)
  | [] => best
  | candidate :: rest =>
    if candidate.size < lookupSize then
      match best with
      | none => bestHint lookupSize (some (index, candidate)) (index + 1) rest
      | some (i, hint) =>
        if candidate.size > hint.size then
          bestHint lookupSize (some (index, candidate)) (index + 1) rest
        else bestHint lookupSize (some (i, hint)) (index + 1) rest
    else bestHint lookupSize best (index + 1) rest

/-- A hint is stale when the list is empty or begins after it. -/
def isStale (freeListHead : Option ℕ) (address : ℕ) : Bool :=
  match freeListHead with
  | none => true
  | some head => address < head

/-- `findHint`: stale hints are removed, the hint found becomes the youngest. -/
def findHint (c : HintCache) (freeListHead : Option ℕ) (lookupSize : ℕ) :
    HintCache × Option AllocateHint :=
  let active := c.hintActive.filter fun hint => !isStale freeListHead hint.heapFreeHeader
  let inactive := c.hintInactive + (c.hintActive.length - active.length)
  match bestHint lookupSize none 0 active with
  | none => (⟨active, inactive, c.hintLru⟩, none)
  | some (i, hint) =>
    (⟨active.set i { hint with lru := c.hintLru }, inactive, c.hintLru + 1⟩, some hint)

/-- `removeHint`. -/
def removeHint (c : HintCache) (freeEntry : ℕ) : HintCache :=
  let active := c.hintActive.filter fun hint => hint.heapFreeHeader ≠ freeEntry
  { c with
    hintActive := active
    hintInactive := c.hintInactive + (c.hintActive.length - active.length) }

/-- `updateHint`. The loop stays at a hint it has rewritten, so that it does not end
when a hint names `oldFreeEntry` and `newFreeEntry` is the same address. -/
def updateHint (c : HintCache) (oldFreeEntry newFreeEntry : ℕ) : Option HintCache :=
  if oldFreeEntry = newFreeEntry ∧ ∃ hint ∈ c.hintActive, hint.heapFreeHeader = oldFreeEntry then
    none
  else
    some { c with
      hintActive := c.hintActive.map fun hint =>
        if hint.heapFreeHeader = oldFreeEntry then { hint with heapFreeHeader := newFreeEntry }
        else hint }

/-- A property of the address and the size of every active hint. -/
def All (c : HintCache) (P : ℕ → ℕ → Prop) : Prop :=
  ∀ hint ∈ c.hintActive, P hint.heapFreeHeader hint.size

variable {c c' : HintCache} {P Q : ℕ → ℕ → Prop}

theorem All.mono (h : c.All P) (hPQ : ∀ a s, P a s → Q a s) : c.All Q :=
  fun hint hmem => hPQ _ _ (h hint hmem)

theorem mem_of_mem_removeOverridden {freeEntry lookupSize : ℕ} {hint : AllocateHint}
    {active : List AllocateHint}
    (h : hint ∈ (removeOverridden freeEntry lookupSize active).1) : hint ∈ active := by
  induction active with
  | nil => simp [removeOverridden] at h
  | cons first rest ih =>
    unfold removeOverridden at h
    split at h
    · exact List.mem_cons_of_mem _ (ih h)
    · split at h
      · exact h
      · rcases List.mem_cons.1 h with rfl | h
        · exact List.mem_cons_self
        · exact List.mem_cons_of_mem _ (ih h)

/-- `addHint` adds nothing but the new hint. -/
theorem addHint_all {freeEntry lookupSize : ℕ} (h : c.All P) (hnew : P freeEntry lookupSize) :
    (addHint c freeEntry lookupSize).All P := by
  have hkept : ∀ hint ∈ (removeOverridden freeEntry lookupSize c.hintActive).1,
      P hint.heapFreeHeader hint.size :=
    fun hint hmem => h hint (mem_of_mem_removeOverridden hmem)
  unfold addHint
  generalize removeOverridden freeEntry lookupSize c.hintActive = r at hkept ⊢
  obtain ⟨active, removed, redundant⟩ := r
  dsimp only at hkept ⊢
  split
  · exact hkept
  · split
    · intro hint hmem
      rcases List.mem_cons.1 hmem with rfl | hmem
      · exact hnew
      · exact hkept hint hmem
    · exact hkept
    · intro hint hmem
      rcases List.mem_or_eq_of_mem_set hmem with hmem | rfl
      · exact hkept hint hmem
      · exact hnew

/-- The search keeps to the hints it is given and to sizes below the request. -/
theorem bestHint_spec {lookupSize i : ℕ} {best : Option (ℕ × AllocateHint)} {index : ℕ}
    {active : List AllocateHint} {hint : AllocateHint}
    (h : bestHint lookupSize best index active = some (i, hint)) :
    best = some (i, hint) ∨ (hint ∈ active ∧ hint.size < lookupSize) := by
  induction active generalizing best index with
  | nil => exact Or.inl h
  | cons candidate rest ih =>
    have hcandidate : ∀ j, candidate.size < lookupSize →
        (some (j, candidate) = some (i, hint) ∨ (hint ∈ rest ∧ hint.size < lookupSize)) →
        hint ∈ candidate :: rest ∧ hint.size < lookupSize := by
      rintro j hsize (he | ⟨hmem, hlt⟩)
      · obtain ⟨-, rfl⟩ := Prod.mk.inj (Option.some.inj he)
        exact ⟨List.mem_cons_self, hsize⟩
      · exact ⟨List.mem_cons_of_mem _ hmem, hlt⟩
    unfold bestHint at h
    split at h
    case isTrue hsize =>
      split at h
      · exact Or.inr (hcandidate index hsize (ih h))
      · split at h
        · exact Or.inr (hcandidate index hsize (ih h))
        · exact (ih h).imp_right fun ⟨hmem, hlt⟩ => ⟨List.mem_cons_of_mem _ hmem, hlt⟩
    case isFalse =>
      exact (ih h).imp_right fun ⟨hmem, hlt⟩ => ⟨List.mem_cons_of_mem _ hmem, hlt⟩

/-- `findHint` finds an active hint that is not stale and is below the request. -/
theorem findHint_some {head : Option ℕ} {lookupSize : ℕ} {hint : AllocateHint}
    (h : (findHint c head lookupSize).2 = some hint) :
    hint ∈ c.hintActive ∧ isStale head hint.heapFreeHeader = false ∧ hint.size < lookupSize := by
  unfold findHint at h
  dsimp only at h
  split at h
  · simp at h
  · rename_i i found hbest
    obtain rfl := Option.some.inj h
    rcases bestHint_spec hbest with he | ⟨hmem, hlt⟩
    · simp at he
    · rw [List.mem_filter] at hmem
      exact ⟨hmem.1, by simpa using hmem.2, hlt⟩

/-- After `findHint` no hint is stale. -/
theorem findHint_all {head : Option ℕ} {lookupSize : ℕ} (h : c.All P) :
    (findHint c head lookupSize).1.All fun a s => P a s ∧ isStale head a = false := by
  have hlive : ∀ hint ∈ c.hintActive.filter fun hint => !isStale head hint.heapFreeHeader,
      P hint.heapFreeHeader hint.size ∧ isStale head hint.heapFreeHeader = false := by
    intro hint hmem
    rw [List.mem_filter] at hmem
    exact ⟨h hint hmem.1, by simpa using hmem.2⟩
  unfold findHint
  dsimp only
  split
  · exact hlive
  · rename_i i found hbest
    intro hint hmem
    rcases List.mem_or_eq_of_mem_set hmem with hmem | rfl
    · exact hlive hint hmem
    · rcases bestHint_spec hbest with he | ⟨hmem, -⟩
      · simp at he
      · exact hlive found hmem

/-- After `removeHint` no hint names the entry. -/
theorem removeHint_all {freeEntry : ℕ} (h : c.All P) :
    (removeHint c freeEntry).All fun a s => P a s ∧ a ≠ freeEntry := by
  intro hint hmem
  simp only [removeHint, List.mem_filter, decide_eq_true_eq] at hmem
  exact ⟨h hint hmem.1, hmem.2⟩

/-- `updateHint` moves the hints of one entry. -/
theorem updateHint_all {old new : ℕ} (h : c.All P) (hupd : updateHint c old new = some c')
    (hold : ∀ s, P old s → Q new s) (hother : ∀ a s, a ≠ old → P a s → Q a s) : c'.All Q := by
  unfold updateHint at hupd
  split at hupd
  · simp at hupd
  · obtain rfl := Option.some.inj hupd
    intro hint hmem
    obtain ⟨hint', hmem', rfl⟩ := List.mem_map.1 hmem
    split
    case isTrue he => exact hold _ (he ▸ h hint' hmem')
    case isFalse hne => exact hother _ _ hne (h hint' hmem')

/-- `updateHint` ends when the entry moves. -/
theorem updateHint_isSome {old new : ℕ} (hne : old ≠ new) : (updateHint c old new).isSome := by
  simp [updateHint, hne]

/-- The addresses that the active hints name. -/
def addresses (c : HintCache) : List ℕ := c.hintActive.map AllocateHint.heapFreeHeader

theorem removeOverridden_sublist (freeEntry lookupSize : ℕ) (active : List AllocateHint) :
    (removeOverridden freeEntry lookupSize active).1.Sublist active := by
  induction active with
  | nil => exact List.Sublist.refl _
  | cons first rest ih =>
    unfold removeOverridden
    split
    · exact ih.trans (List.sublist_cons_self ..)
    · split
      · exact List.Sublist.refl _
      · exact ih.cons_cons first

/-- Unless the new hint is redundant, no hint of the same entry stays. -/
theorem not_mem_removeOverridden {freeEntry lookupSize : ℕ} {active : List AllocateHint}
    (h : (removeOverridden freeEntry lookupSize active).2.2 = false) :
    ∀ hint ∈ (removeOverridden freeEntry lookupSize active).1, hint.heapFreeHeader ≠ freeEntry := by
  induction active with
  | nil => simp [removeOverridden]
  | cons first rest ih =>
    unfold removeOverridden at h ⊢
    by_cases hover : overrides freeEntry lookupSize first = true
    · rw [if_pos hover] at h ⊢
      exact ih h
    · rw [if_neg hover] at h ⊢
      by_cases hne : freeEntry = first.heapFreeHeader
      · rw [if_pos hne] at h
        cases h
      · rw [if_neg hne] at h ⊢
        intro hint hmem
        obtain rfl | hmem := List.mem_cons.1 hmem
        · exact Ne.symm hne
        · exact ih h hint hmem

/-- `addHint` gives no entry a second hint. -/
theorem addHint_nodup {freeEntry lookupSize : ℕ} (h : c.addresses.Nodup) :
    (addHint c freeEntry lookupSize).addresses.Nodup := by
  have hsub := (removeOverridden_sublist freeEntry lookupSize c.hintActive).map
    AllocateHint.heapFreeHeader
  have hnot := @not_mem_removeOverridden freeEntry lookupSize c.hintActive
  unfold addHint addresses
  generalize removeOverridden freeEntry lookupSize c.hintActive = r at hsub hnot ⊢
  obtain ⟨active, removed, redundant⟩ := r
  have hkept : (active.map AllocateHint.heapFreeHeader).Nodup := h.sublist hsub
  dsimp only at hnot ⊢
  split
  · exact hkept
  · rename_i hred
    have hnew : freeEntry ∉ active.map AllocateHint.heapFreeHeader := by
      rw [List.mem_map]
      rintro ⟨hint, hmem, heq⟩
      exact hnot (by simpa using hred) hint hmem heq
    split
    · exact List.nodup_cons.2 ⟨hnew, hkept⟩
    · exact List.nodup_nil
    · rw [List.map_set]
      exact hkept.set hnew

/-- The search gives the place of the hint along with it. -/
theorem bestHint_getElem {lookupSize i : ℕ} {best : Option (ℕ × AllocateHint)} {index : ℕ}
    {active : List AllocateHint} {hint : AllocateHint}
    (h : bestHint lookupSize best index active = some (i, hint)) :
    best = some (i, hint) ∨ ∃ k, i = index + k ∧ active[k]? = some hint := by
  induction active generalizing best index with
  | nil => exact Or.inl h
  | cons candidate rest ih =>
    have hrest : ∀ {best' : Option (ℕ × AllocateHint)},
        bestHint lookupSize best' (index + 1) rest = some (i, hint) →
        best' = some (i, hint) ∨ ∃ k, i = index + k ∧ (candidate :: rest)[k]? = some hint := by
      intro best' hb
      obtain hb | ⟨k, hk, hget⟩ := ih hb
      · exact Or.inl hb
      · exact Or.inr ⟨k + 1, by omega, by simpa using hget⟩
    have hfirst : some (index, candidate) = some (i, hint) →
        ∃ k, i = index + k ∧ (candidate :: rest)[k]? = some hint := by
      intro heq
      obtain ⟨rfl, rfl⟩ := Prod.mk.inj (Option.some.inj heq)
      exact ⟨0, rfl, rfl⟩
    unfold bestHint at h
    split at h
    · split at h
      · exact Or.inr ((hrest h).elim hfirst id)
      · split at h
        · exact Or.inr ((hrest h).elim hfirst id)
        · exact hrest h
    · exact hrest h

/-- `findHint` changes no address. -/
theorem findHint_nodup {head : Option ℕ} {lookupSize : ℕ} (h : c.addresses.Nodup) :
    (findHint c head lookupSize).1.addresses.Nodup := by
  have hlive : ((c.hintActive.filter fun hint => !isStale head hint.heapFreeHeader).map
      AllocateHint.heapFreeHeader).Nodup := h.sublist (List.filter_sublist.map _)
  unfold findHint addresses
  dsimp only
  split
  · exact hlive
  · rename_i i found hbest
    obtain hb | ⟨k, rfl, hget⟩ := bestHint_getElem hbest
    · cases hb
    · obtain ⟨hk, rfl⟩ := List.getElem?_eq_some_iff.1 hget
      rw [List.map_set, Nat.zero_add, ← List.getElem_map AllocateHint.heapFreeHeader,
        List.set_getElem_self]
      · exact hlive
      · rwa [List.length_map]

theorem removeHint_nodup {freeEntry : ℕ} (h : c.addresses.Nodup) :
    (removeHint c freeEntry).addresses.Nodup :=
  h.sublist (List.filter_sublist.map _)

/-- `updateHint` to an address that no hint names. -/
theorem updateHint_nodup {old new : ℕ} (h : c.addresses.Nodup) (hnew : new ∉ c.addresses)
    (hupd : updateHint c old new = some c') : c'.addresses.Nodup := by
  unfold updateHint at hupd
  split at hupd
  · cases hupd
  · cases hupd
    have hmap : addresses { c with
        hintActive := c.hintActive.map fun hint =>
          if hint.heapFreeHeader = old then { hint with heapFreeHeader := new } else hint } =
        c.addresses.map fun a => if a = old then new else a := by
      unfold addresses
      rw [List.map_map, List.map_map]
      refine List.map_congr_left fun hint _ => ?_
      simp only [Function.comp_apply]
      split <;> simp_all
    rw [hmap]
    refine h.map_on fun a ha b hb hab => ?_
    have hnota : a ≠ new := ne_of_mem_of_not_mem ha hnew
    have hnotb : b ≠ new := ne_of_mem_of_not_mem hb hnew
    split at hab <;> split at hab <;> simp_all

/-- `updateHint` to the same address ends only where no hint names it. -/
theorem not_mem_of_updateHint_self {a : ℕ} (hupd : updateHint c a a = some c') :
    a ∉ c.addresses := by
  intro hmem
  obtain ⟨hint, hhint, haddr⟩ := List.mem_map.1 hmem
  unfold updateHint at hupd
  rw [if_pos ⟨rfl, hint, hhint, haddr⟩] at hupd
  cases hupd

end HintCache

end OMR.GC
