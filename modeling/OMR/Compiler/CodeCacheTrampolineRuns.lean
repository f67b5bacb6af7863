import OMR.Compiler.CodeCacheTrampolines

/-!
# Synchronisation of trampolines

A permanent trampoline that is out of date is on the synchronisation list, unless a full
synchronisation is required. A full one goes by the start PC that is recorded in the
entry, and that is the one of the last temporary trampoline.
-/

namespace OMR.Compiler.TrampolineCache

variable {M PC : Type*} [DecidableEq M] {config : TrampolineConfig M}

/-- The calls on the trampolines of a code cache, and the changes of start PCs they come from. -/
inductive Op (M PC : Type*)
  | reserveResolvedTrampoline (method : M) (allocated : Bool)
  | findTrampoline (method : M)
  /-- The start PC of a method with an entry changes, and the caller writes the new one into the
  trampoline that `replaceTrampoline` returns. -/
  | replaceTrampoline (method : M) (newTargetPC : PC) (needSync allocated : Bool)
  /-- The start PC of a method without an entry changes. -/
  | newStartPC (method : M) (newTargetPC : PC)
  | syncTempTrampolines

/-- The trampolines, and for each method the start PC of the last temporary trampoline that it
was given since its permanent one was last written or synchronised. -/
structure Run (M PC : Type*) where
  cache : TrampolineCache M PC
  lastTemporary : M → Option PC

/-- The permanent trampoline of a method. -/
def permanent (s : TrampolineCache M PC) (method : M) : Option ℕ :=
  (s.entry method).currentTrampoline

/-- A method's start PC has changed. -/
def setStartPC (s : TrampolineCache M PC) (method : M) (newTargetPC : PC) : TrampolineCache M PC :=
  { s with startPC := Function.update s.startPC method newTargetPC }

def exec [DecidableEq PC] (config : TrampolineConfig M) (r : Run M PC) : Op M PC → Run M PC
  | .reserveResolvedTrampoline method allocated =>
    { r with cache := r.cache.reserveResolvedTrampoline config method allocated }
  | .findTrampoline method => { r with cache := (r.cache.findTrampoline config method).2 }
  | .replaceTrampoline method newTargetPC needSync allocated =>
    let old := r.cache.permanent method
    let replaced := (r.cache.setStartPC method newTargetPC).replaceTrampoline config method old
      newTargetPC needSync allocated
    { cache := replaced.2.createTrampoline replaced.1 newTargetPC
      lastTemporary :=
        if needSync ∧ old.isSome then
          if replaced.1.isSome then Function.update r.lastTemporary method (some newTargetPC)
          else r.lastTemporary
        else Function.update r.lastTemporary method none }
  | .newStartPC method newTargetPC => { r with cache := r.cache.setStartPC method newTargetPC }
  | .syncTempTrampolines =>
    { cache := r.cache.syncTempTrampolines config, lastTemporary := fun _ => none }

/-- A trampoline is looked up or replaced only for a method with an entry. -/
def Permitted (config : TrampolineConfig M) (s : TrampolineCache M PC) : Op M PC → Prop
  | .findTrampoline method => s.findResolvedMethod config method = true
  | .replaceTrampoline method _ _ _ => s.findResolvedMethod config method = true
  | .newStartPC method _ => s.findResolvedMethod config method = false
  | _ => True

/-- Every permanent trampoline targets the start PC of its method. -/
def Synchronised (s : TrampolineCache M PC) : Prop :=
  ∀ method trampoline, s.permanent method = some trampoline →
    s.code trampoline = some (s.startPC method)

/-- Between synchronisations. -/
structure Inv (config : TrampolineConfig M) (s : TrampolineCache M PC)
    (lastTemporary : M → Option PC) : Prop where
  temporary : s.tempTrampolineBase ≤ s.tempTrampolineNext
  belowTemporary : s.trampolineAllocationMark ≤ s.tempTrampolineBase
  /-- There is a reserved slot for each method that has an entry and no trampoline. -/
  reserved : ∃ waiting : Finset M,
    (∀ m, s.findResolvedMethod config m = true → s.permanent m = none → m ∈ waiting) ∧
      s.trampolineReservationMark + config.trampolineCodeSize * waiting.card ≤
        s.trampolineAllocationMark
  found : ∀ m a, s.permanent m = some a → s.findResolvedMethod config m = true
  range : ∀ m a, s.permanent m = some a →
    s.trampolineAllocationMark ≤ a ∧ a < s.tempTrampolineBase
  distinct : ∀ m m' a, s.permanent m = some a → s.permanent m' = some a → m = m'
  listed : ∀ m ∈ s.listed, ∃ a, s.permanent m = some a
  upToDate : ∀ m a, s.permanent m = some a →
    s.code a = some (s.startPC m) ∨ m ∈ s.listed ∨ s.fullSyncRequired = true
  handed : ∀ m pc, lastTemporary m = some pc →
    (∃ a, s.permanent m = some a) ∧ (m ∈ s.listed ∨ s.fullSyncRequired = true)
  recorded : ∀ m a, s.permanent m = some a →
    (s.entry m).currentStartPC = (lastTemporary m).or (s.code a)

section Synchronisation

variable {s : TrampolineCache M PC}

/-- One entry in a synchronisation of either kind. -/
def syncEntry [DecidableEq PC] (full : Bool) (s : TrampolineCache M PC) (method : M) : TrampolineCache M PC :=
  if full then s.fullSyncEntry method else s.rewrite method

/-- What a synchronisation of the methods of `l` leaves of the code and the recorded start PCs. -/
structure Rewritten (full : Bool) (l : List M) (s s' : TrampolineCache M PC) : Prop where
  rest : s' = { s with entry := s'.entry, code := s'.code }
  permanent : ∀ m, s'.permanent m = s.permanent m
  done : ∀ m a, s.permanent m = some a →
    m ∈ l → (full = true → (s.entry m).currentStartPC ≠ some (s.startPC m)) →
      s'.code a = some (s.startPC m) ∧ (s'.entry m).currentStartPC = some (s.startPC m)
  kept : ∀ m a, s.permanent m = some a →
    (m ∉ l ∨ full = true ∧ (s.entry m).currentStartPC = some (s.startPC m)) →
      s'.code a = s.code a ∧ (s'.entry m).currentStartPC = (s.entry m).currentStartPC

/-- No two methods share a permanent trampoline. -/
def Distinct (s : TrampolineCache M PC) : Prop :=
  ∀ m m' a, s.permanent m = some a → s.permanent m' = some a → m = m'

theorem rewritten_rewrite (hdistinct : s.Distinct) (method : M) :
    Rewritten false [method] s (s.rewrite method) := by
  have hentry {m : M} (hm : m ≠ method) : (s.rewrite method).entry m = s.entry m := by
    simp only [rewrite, recordStartPC, createTrampoline]
    split <;> exact Function.update_of_ne hm ..
  have hself : (s.rewrite method).entry method =
      { s.entry method with currentStartPC := some (s.startPC method) } := by
    simp only [rewrite, recordStartPC, createTrampoline]
    split <;> exact Function.update_self ..
  have hcode {a b : ℕ} (ha : s.permanent method = some a) :
      (s.rewrite method).code b = if b = a then some (s.startPC method) else s.code b := by
    have ha' : (s.entry method).currentTrampoline = some a := ha
    simp only [rewrite, recordStartPC, createTrampoline, ha', Function.update_apply]
  exact
    { rest := by
        simp only [rewrite, recordStartPC, createTrampoline]
        split <;> rfl
      permanent := fun m => by
        by_cases hm : m = method
        · rw [hm, permanent, hself]
          rfl
        · rw [permanent, hentry hm]
          rfl
      done := fun m a ha hmem _ => by
        obtain rfl := List.mem_singleton.1 hmem
        rw [hcode ha, if_pos rfl, hself]
        exact ⟨rfl, rfl⟩
      kept := fun m a ha hout => by
        have hm : m ≠ method := by
          rcases hout with hout | hout
          · exact fun hm => hout (List.mem_singleton.2 hm)
          · exact absurd hout.1 Bool.false_ne_true
        rw [hentry hm]
        refine ⟨?_, rfl⟩
        cases hp : s.permanent method with
        | none =>
          have hp' : (s.entry method).currentTrampoline = none := hp
          simp only [rewrite, recordStartPC, createTrampoline, hp']
        | some b =>
          have hab : a ≠ b := by
            rintro rfl
            exact hm (hdistinct m method a ha hp)
          rw [hcode hp, if_neg hab] }

omit [DecidableEq M] in
theorem Rewritten.startPC {full : Bool} {l : List M} {s' : TrampolineCache M PC}
    (h : Rewritten full l s s') : s'.startPC = s.startPC := by
  rw [h.rest]

omit [DecidableEq M] in
theorem Rewritten.trans {full : Bool} {l₁ l₂ : List M} {s' s'' : TrampolineCache M PC}
    (h₁ : Rewritten full l₁ s s') (h₂ : Rewritten full l₂ s' s'') :
    Rewritten full (l₁ ++ l₂) s s'' where
  rest := by
    rw [h₂.rest, h₁.rest]
  permanent m := (h₂.permanent m).trans (h₁.permanent m)
  done m a ha hmem htest := by
    have ha' : s'.permanent m = some a := (h₁.permanent m).trans ha
    have hstart := h₁.startPC
    by_cases hm₁ : m ∈ l₁
    · obtain ⟨hcode, hcur⟩ := h₁.done m a ha hm₁ htest
      by_cases hm₂ : m ∈ l₂ ∧ (full = true → (s'.entry m).currentStartPC ≠ some (s'.startPC m))
      · have hdone := h₂.done m a ha' hm₂.1 hm₂.2
        rwa [hstart] at hdone
      · have hkept := h₂.kept m a ha' (by
          by_cases hmem₂ : m ∈ l₂
          · refine .inr ⟨?_, by rw [hcur, hstart]⟩
            by_contra hfull
            exact hm₂ ⟨hmem₂, fun h => absurd h hfull⟩
          · exact .inl hmem₂)
        rw [hkept.1, hkept.2]
        exact ⟨hcode, hcur⟩
    · have hkept := h₁.kept m a ha (.inl hm₁)
      have hm₂ : m ∈ l₂ := (List.mem_append.1 hmem).resolve_left hm₁
      have hdone := h₂.done m a ha' hm₂ (by rwa [hkept.2, hstart])
      rwa [hstart] at hdone
  kept m a ha hout := by
    have ha' : s'.permanent m = some a := (h₁.permanent m).trans ha
    have hout' : (m ∉ l₁ ∧ m ∉ l₂) ∨
        full = true ∧ (s.entry m).currentStartPC = some (s.startPC m) := by
      rcases hout with hout | hout
      · rw [List.mem_append, not_or] at hout
        exact .inl hout
      · exact .inr hout
    have hkept := h₁.kept m a ha (hout'.imp_left And.left)
    have hkept' := h₂.kept m a ha' (by
      rcases hout' with hout' | hout'
      · exact .inl hout'.2
      · exact .inr (by rwa [hkept.2, h₁.startPC]))
    exact ⟨hkept'.1.trans hkept.1, hkept'.2.trans hkept.2⟩

variable [DecidableEq PC]

theorem rewritten_one (hdistinct : s.Distinct) (full : Bool) (method : M) :
    Rewritten full [method] s (syncEntry full s method) := by
  have hrewrite := rewritten_rewrite hdistinct method
  cases full with
  | false => exact hrewrite
  | true =>
    change Rewritten true [method] s (s.fullSyncEntry method)
    rw [fullSyncEntry]
    split
    · rename_i htest
      exact
        { rest := hrewrite.rest
          permanent := hrewrite.permanent
          done := fun m a ha hmem _ => hrewrite.done m a ha hmem fun h => by cases h
          kept := fun m a ha hout => by
            rcases hout with hout | ⟨-, hcur⟩
            · exact hrewrite.kept m a ha (.inl hout)
            · refine hrewrite.kept m a ha (.inl fun hmem => ?_)
              obtain rfl := List.mem_singleton.1 hmem
              exact htest.2 hcur }
    · rename_i htest
      exact
        { rest := rfl
          permanent := fun _ => rfl
          done := fun m a ha hmem hcur => by
            obtain rfl := List.mem_singleton.1 hmem
            exact absurd ⟨Option.isSome_iff_exists.2 ⟨a, ha⟩, hcur rfl⟩ htest
          kept := fun _ _ _ _ => ⟨rfl, rfl⟩ }

theorem rewritten_foldl (hdistinct : s.Distinct) (full : Bool) (l : List M) :
    Rewritten full l s (l.foldl (syncEntry full) s) := by
  induction l generalizing s with
  | nil =>
    exact
      { rest := rfl
        permanent := fun _ => rfl
        done := fun _ _ _ hmem => by cases hmem
        kept := fun _ _ _ _ => ⟨rfl, rfl⟩ }
  | cons method l ih =>
    have hone := rewritten_one hdistinct full method
    have hdistinct' : (syncEntry full s method).Distinct := by
      intro m m' a hm hm'
      rw [hone.permanent] at hm hm'
      exact hdistinct m m' a hm hm'
    exact hone.trans (ih hdistinct')

end Synchronisation

section Calls

variable {s : TrampolineCache M PC} {last : M → Option PC} {method : M} {pc : PC}

omit [DecidableEq M] in
theorem mem_addToFirstFree {blocks blocks' : List (TempTrampolineSyncBlock M)}
    (h : addToFirstFree method blocks = some blocks') (m : M) :
    m ∈ blocks'.flatMap TempTrampolineSyncBlock.hashEntries ↔
      m ∈ blocks.flatMap TempTrampolineSyncBlock.hashEntries ∨ m = method := by
  induction blocks generalizing blocks' with
  | nil => cases h
  | cons block blocks ih =>
    rw [addToFirstFree] at h
    split at h
    · obtain rfl := Option.some.inj h
      simp only [List.flatMap_cons, List.mem_append, List.mem_singleton]
      tauto
    · obtain ⟨rest, hrest, rfl⟩ := Option.map_eq_some_iff.1 h
      simp only [List.flatMap_cons, List.mem_append, ih hrest]
      tauto

/-- `saveTempTrampoline` puts the method on the list or requires a full synchronisation. -/
theorem saveTempTrampoline_spec (config : TrampolineConfig M) (s : TrampolineCache M PC)
    (method : M) (allocated : Bool) :
    ∃ blocks full, s.saveTempTrampoline config method allocated =
        { s with trampolineSyncList := blocks, fullSyncRequired := full } ∧
      (∀ m, m ∈ blocks.flatMap TempTrampolineSyncBlock.hashEntries →
        m ∈ s.listed ∨ m = method) ∧
      (∀ m ∈ s.listed, m ∈ blocks.flatMap TempTrampolineSyncBlock.hashEntries) ∧
      (method ∈ blocks.flatMap TempTrampolineSyncBlock.hashEntries ∨ full = true) ∧
      (s.fullSyncRequired = true → full = true) := by
  rw [saveTempTrampoline]
  by_cases hmem : s.listed.contains method
  · rw [if_pos hmem]
    exact ⟨_, _, rfl, fun _ => .inl, fun _ => id, .inl (List.contains_iff_mem.1 hmem), id⟩
  rw [if_neg hmem]
  cases hfree : addToFirstFree method s.trampolineSyncList with
  | some blocks =>
    have hiff := mem_addToFirstFree hfree
    exact ⟨blocks, _, rfl, fun m => (hiff m).1, fun m hm => (hiff m).2 (.inl hm),
      .inl ((hiff method).2 (.inr rfl)), id⟩
  | none =>
    cases allocated with
    | true =>
      refine ⟨_, _, rfl, fun m hm => ?_, fun m hm => ?_, .inl ?_, id⟩
      · rw [List.flatMap_cons, List.nil_append, List.mem_append, List.mem_singleton] at hm
        exact hm.symm
      · exact List.mem_append_right _ hm
      · exact List.mem_append_left _ (List.mem_singleton_self _)
    | false => exact ⟨_, true, rfl, fun _ => .inl, fun _ => id, .inr rfl, fun _ => rfl⟩

/-- The start PC of a method with a trampoline changes, and that is remembered. -/
theorem Inv.save (h : Inv config s last) {a : ℕ} (ha : s.permanent method = some a) {next : ℕ}
    (hnext : s.tempTrampolineNext ≤ next) {blocks : List (TempTrampolineSyncBlock M)} {full : Bool}
    (hblocks : ∀ m, m ∈ blocks.flatMap TempTrampolineSyncBlock.hashEntries →
      m ∈ s.listed ∨ m = method)
    (hkeep : ∀ m ∈ s.listed, m ∈ blocks.flatMap TempTrampolineSyncBlock.hashEntries)
    (hsaved : method ∈ blocks.flatMap TempTrampolineSyncBlock.hashEntries ∨ full = true)
    (hfull : s.fullSyncRequired = true → full = true) :
    Inv config { s.setStartPC method pc with
      tempTrampolineNext := next, trampolineSyncList := blocks, fullSyncRequired := full } last where
  temporary := h.temporary.trans hnext
  belowTemporary := h.belowTemporary
  reserved := h.reserved
  found := h.found
  range := h.range
  distinct := h.distinct
  listed m hm := by
    rcases hblocks m hm with hm | rfl
    · exact h.listed m hm
    · exact ⟨a, ha⟩
  upToDate m b hb := by
    by_cases hm : m = method
    · rw [hm]
      exact .inr hsaved
    · rcases h.upToDate m b hb with hcode | hlisted | hf
      · exact .inl (hcode.trans (congrArg some (Function.update_of_ne hm ..).symm))
      · exact .inr (.inl (hkeep m hlisted))
      · exact .inr (.inr (hfull hf))
  handed m p hp := by
    obtain ⟨hperm, hm⟩ := h.handed m p hp
    exact ⟨hperm, hm.imp (hkeep m) hfull⟩
  recorded := h.recorded

/-- A temporary trampoline is handed out for a method that is remembered. -/
theorem Inv.hand (h : Inv config s last) {a : ℕ} (ha : s.permanent method = some a)
    (hsaved : method ∈ s.listed ∨ s.fullSyncRequired = true) {t : ℕ} (ht : s.tempTrampolineBase ≤ t) :
    Inv config ((s.recordStartPC method pc).createTrampoline (some t) pc)
      (Function.update last method (some pc)) := by
  have hperm (m : M) :
      ((s.recordStartPC method pc).createTrampoline (some t) pc).permanent m = s.permanent m := by
    by_cases hm : m = method
    · rw [hm]
      simp only [permanent, createTrampoline, recordStartPC, Function.update_self]
    · simp only [permanent, createTrampoline, recordStartPC, Function.update_of_ne hm]
  have hcode {m : M} {b : ℕ} (hb : s.permanent m = some b) :
      Function.update s.code t (some pc) b = s.code b := by
    have hbt : b ≠ t := ((h.range m b hb).2.trans_le ht).ne
    exact Function.update_of_ne hbt ..
  exact
    { temporary := h.temporary
      belowTemporary := h.belowTemporary
      reserved := by
        obtain ⟨waiting, hwaiting, hmarks⟩ := h.reserved
        exact ⟨waiting, fun m hm hnone => hwaiting m hm ((hperm m).symm.trans hnone), hmarks⟩
      found := fun m b hb => h.found m b ((hperm m).symm.trans hb)
      range := fun m b hb => h.range m b ((hperm m).symm.trans hb)
      distinct := fun m m' b hb hb' =>
        h.distinct m m' b ((hperm m).symm.trans hb) ((hperm m').symm.trans hb')
      listed := fun m hm => (h.listed m hm).imp fun b hb => (hperm m).trans hb
      upToDate := fun m b hb => by
        have hb' := (hperm m).symm.trans hb
        rcases h.upToDate m b hb' with hold | hrest
        · exact .inl ((hcode hb').trans hold)
        · exact .inr hrest
      handed := fun m p hp => by
        by_cases hm : m = method
        · rw [hm]
          exact ⟨⟨a, (hperm method).trans ha⟩, hsaved⟩
        · rw [Function.update_of_ne hm] at hp
          obtain ⟨⟨b, hb⟩, hrest⟩ := h.handed m p hp
          exact ⟨⟨b, (hperm m).trans hb⟩, hrest⟩
      recorded := fun m b hb => by
        have hb' := (hperm m).symm.trans hb
        change (Function.update s.entry method _ m).currentStartPC =
          (Function.update last method (some pc) m).or (Function.update s.code t (some pc) b)
        by_cases hm : m = method
        · rw [hm, Function.update_self, Function.update_self]
          rfl
        · rw [Function.update_of_ne hm, Function.update_of_ne hm, hcode hb']
          exact h.recorded m b hb' }

/-- The permanent trampoline of a method is written, and was just allocated if there was none. -/
def writePermanent (s : TrampolineCache M PC) (method : M) (trampoline mark : ℕ) (pc : PC) :
    TrampolineCache M PC :=
  { s.setStartPC method pc with
    trampolineAllocationMark := mark
    entry := Function.update s.entry method ⟨some pc, some trampoline⟩
    code := Function.update s.code trampoline (some pc) }

theorem Inv.writePermanent (h : Inv config s last) {a mark : ℕ}
    (hfound : s.findResolvedMethod config method = true)
    (hmark : mark ≤ s.trampolineAllocationMark) (ha : mark ≤ a ∧ a < s.tempTrampolineBase)
    (hnew : ∀ m, s.permanent m = some a → m = method)
    (hreserved : ∃ waiting : Finset M,
      (∀ m, s.findResolvedMethod config m = true → s.permanent m = none → m ≠ method →
        m ∈ waiting) ∧
      s.trampolineReservationMark + config.trampolineCodeSize * waiting.card ≤ mark) :
    Inv config (s.writePermanent method a mark pc) (Function.update last method none) := by
  have hself : (s.writePermanent method a mark pc).permanent method = some a := by
    simp only [permanent, TrampolineCache.writePermanent, Function.update_self]
  have hother {m : M} (hm : m ≠ method) :
      (s.writePermanent method a mark pc).permanent m = s.permanent m := by
    simp only [permanent, TrampolineCache.writePermanent, Function.update_of_ne hm]
  have hne {m : M} {b : ℕ} (hm : m ≠ method) (hb : s.permanent m = some b) : b ≠ a := by
    rintro rfl
    exact hm (hnew m hb)
  exact
    { temporary := h.temporary
      belowTemporary := hmark.trans h.belowTemporary
      reserved := by
        obtain ⟨waiting, hwaiting, hmarks⟩ := hreserved
        refine ⟨waiting, fun m hm hnone => ?_, hmarks⟩
        have hmm : m ≠ method := by
          rintro rfl
          rw [hself] at hnone
          cases hnone
        exact hwaiting m hm ((hother hmm).symm.trans hnone) hmm
      found := fun m b hb => by
        by_cases hm : m = method
        · rw [hm]
          exact hfound
        · exact h.found m b ((hother hm).symm.trans hb)
      range := fun m b hb => by
        by_cases hm : m = method
        · rw [hm, hself] at hb
          obtain rfl := Option.some.inj hb
          exact ha
        · obtain ⟨hlo, hhi⟩ := h.range m b ((hother hm).symm.trans hb)
          exact ⟨hmark.trans hlo, hhi⟩
      distinct := fun m m' b hb hb' => by
        by_cases hm : m = method
        · rw [hm, hself] at hb
          obtain rfl := Option.some.inj hb
          by_cases hm' : m' = method
          · rw [hm, hm']
          · exact absurd rfl (hne hm' ((hother hm').symm.trans hb'))
        · by_cases hm' : m' = method
          · rw [hm', hself] at hb'
            obtain rfl := Option.some.inj hb'
            exact absurd rfl (hne hm ((hother hm).symm.trans hb))
          · exact h.distinct m m' b ((hother hm).symm.trans hb) ((hother hm').symm.trans hb')
      listed := fun m hm => by
        by_cases hmm : m = method
        · exact ⟨a, by rw [hmm, hself]⟩
        · exact (h.listed m hm).imp fun b hb => (hother hmm).trans hb
      upToDate := fun m b hb => by
        by_cases hm : m = method
        · rw [hm, hself] at hb
          obtain rfl := Option.some.inj hb
          rw [hm]
          refine .inl ?_
          change Function.update s.code a (some pc) a = some (Function.update s.startPC method pc method)
          rw [Function.update_self, Function.update_self]
        · have hb' := (hother hm).symm.trans hb
          rcases h.upToDate m b hb' with hcode | hrest
          · refine .inl ?_
            change Function.update s.code a (some pc) b = some (Function.update s.startPC method pc m)
            rw [Function.update_of_ne (hne hm hb'), Function.update_of_ne hm, hcode]
          · exact .inr hrest
      handed := fun m p hp => by
        have hm : m ≠ method := by
          rintro rfl
          rw [Function.update_self] at hp
          cases hp
        rw [Function.update_of_ne hm] at hp
        obtain ⟨⟨b, hb⟩, hrest⟩ := h.handed m p hp
        exact ⟨⟨b, (hother hm).trans hb⟩, hrest⟩
      recorded := fun m b hb => by
        change (Function.update s.entry method _ m).currentStartPC =
          (Function.update last method none m).or (Function.update s.code a (some pc) b)
        by_cases hm : m = method
        · rw [hm, hself] at hb
          obtain rfl := Option.some.inj hb
          rw [hm, Function.update_self, Function.update_self, Function.update_self]
          rfl
        · have hb' := (hother hm).symm.trans hb
          rw [Function.update_of_ne hm, Function.update_of_ne hm,
            Function.update_of_ne (hne hm hb')]
          exact h.recorded m b hb' }

/-- The slot that has been reserved for a method is there, so the method gets its permanent
trampoline. -/
theorem Inv.writeNew (h : Inv config s last) (hsize : 0 < config.trampolineCodeSize)
    (hfound : s.findResolvedMethod config method = true) (hnone : s.permanent method = none)
    (pc : PC) :
    let mark := s.trampolineAllocationMark - config.trampolineCodeSize
    s.trampolineAllocationMark > s.trampolineReservationMark ∧
      Inv config (s.writePermanent method mark mark pc) (Function.update last method none) := by
  intro mark
  obtain ⟨waiting, hwaiting, hmarks⟩ := h.reserved
  have hmem := hwaiting method hfound hnone
  have hcard : config.trampolineCodeSize * waiting.card =
      config.trampolineCodeSize * (waiting.erase method).card + config.trampolineCodeSize := by
    rw [← Finset.card_erase_add_one hmem, Nat.mul_succ]
  have hmark : mark + config.trampolineCodeSize = s.trampolineAllocationMark :=
    Nat.sub_add_cancel (by omega)
  have hlt : mark < s.trampolineAllocationMark := by omega
  refine ⟨by omega, h.writePermanent hfound hlt.le ⟨le_rfl, hlt.trans_le h.belowTemporary⟩
    (fun m hm => absurd (h.range m mark hm).1 (not_le.2 hlt)) ?_⟩
  exact ⟨waiting.erase method, fun m hm hm' hne => Finset.mem_erase.2 ⟨hne, hwaiting m hm hm'⟩,
    by omega⟩

/-- The permanent trampoline of a method is written in place. -/
theorem Inv.writeInPlace (h : Inv config s last) {a : ℕ} (ha : s.permanent method = some a)
    (pc : PC) :
    Inv config (s.writePermanent method a s.trampolineAllocationMark pc)
      (Function.update last method none) := by
  refine h.writePermanent (h.found method a ha) le_rfl (h.range method a ha)
    (fun m hm => h.distinct m method a hm ha) ?_
  obtain ⟨waiting, hwaiting, hmarks⟩ := h.reserved
  exact ⟨waiting, fun m hm hm' _ => hwaiting m hm hm', hmarks⟩

theorem Inv.findTrampoline (h : Inv config s last) (hsize : 0 < config.trampolineCodeSize)
    (hfound : s.findResolvedMethod config method = true) :
    Inv config (s.findTrampoline config method).2 last := by
  cases hp : s.permanent method with
  | some a =>
    have hp' : (s.entry method).currentTrampoline = some a := hp
    rw [TrampolineCache.findTrampoline, hp']
    exact h
  | none =>
    have hp' : (s.entry method).currentTrampoline = none := hp
    obtain ⟨hlt, hinv⟩ := h.writeNew hsize hfound hp (s.startPC method)
    have hlast : Function.update last method none = last := by
      refine Function.update_eq_self_iff.2 ?_
      cases hl : last method with
      | none => rfl
      | some p =>
        obtain ⟨⟨b, hb⟩, -⟩ := h.handed method p hl
        rw [hp] at hb
        cases hb
    rw [hlast] at hinv
    simp only [TrampolineCache.writePermanent, setStartPC, Function.update_eq_self] at hinv
    simp only [TrampolineCache.findTrampoline, hp', allocateTrampoline, if_pos hlt, createTrampoline]
    exact hinv

omit [DecidableEq M] in
theorem emptyBlocks_entries (blocks : List (TempTrampolineSyncBlock M)) :
    (emptyBlocks blocks).flatMap TempTrampolineSyncBlock.hashEntries = [] := by
  simp [emptyBlocks, List.flatMap_map]

theorem Inv.reserveResolvedTrampoline (h : Inv config s last) (method : M) (allocated : Bool) :
    Inv config (s.reserveResolvedTrampoline config method allocated) last := by
  rw [TrampolineCache.reserveResolvedTrampoline]
  by_cases hfound : s.findResolvedMethod config method = true
  · rw [if_pos hfound]
    exact h
  rw [if_neg hfound, reserveTrampoline]
  by_cases hspace : s.trampolineReservationMark < s.trampolineBase + config.trampolineCodeSize
  · rw [if_pos hspace]
    exact h
  rw [if_neg hspace]
  obtain ⟨waiting, hwaiting, hmarks⟩ := h.reserved
  cases allocated with
  | false => exact { h with reserved := ⟨waiting, hwaiting, le_trans (by simp) hmarks⟩ }
  | true =>
    have hnone : s.permanent method = none := by
      cases hp : s.permanent method with
      | none => rfl
      | some a => exact absurd (h.found method a hp) hfound
    obtain ⟨s', hs'⟩ : ∃ s', s' = ({ s with
      trampolineReservationMark := s.trampolineReservationMark - config.trampolineCodeSize } :
        TrampolineCache M PC).addResolvedMethod config method := ⟨_, rfl⟩
    have hperm (m : M) : s'.permanent m = s.permanent m := by
      rw [hs']
      by_cases hm : m = method
      · rw [hm, hnone]
        simp only [permanent, addResolvedMethod, Function.update_self]
      · simp only [permanent, addResolvedMethod, Function.update_of_ne hm]
    have hfound' (m : M) : s'.findResolvedMethod config m = true ↔
        m = method ∨ s.findResolvedMethod config m = true := by
      rw [hs']
      simp only [findResolvedMethod, addResolvedMethod, List.contains_iff_mem]
      by_cases hb : bucketOf config m = bucketOf config method
      · rw [hb, Function.update_self, List.mem_cons]
      · have hm : m ≠ method := fun hm => hb (by rw [hm])
        rw [Function.update_of_ne hb]
        exact (or_iff_right hm).symm
    change Inv config (TrampolineCache.addResolvedMethod config _ method) last
    rw [← hs']
    have hsame : s' = { s with
        trampolineReservationMark := s.trampolineReservationMark - config.trampolineCodeSize
        entry := s'.entry, buckets := s'.buckets } := by
      rw [hs']
      rfl
    exact
      { temporary := by rw [hsame]; exact h.temporary
        belowTemporary := by rw [hsame]; exact h.belowTemporary
        reserved := by
          refine ⟨insert method waiting, fun m hm hp => ?_, ?_⟩
          · rcases (hfound' m).1 hm with rfl | hm
            · exact Finset.mem_insert_self ..
            · exact Finset.mem_insert_of_mem (hwaiting m hm ((hperm m).symm.trans hp))
          · have hle : config.trampolineCodeSize * (insert method waiting).card ≤
                config.trampolineCodeSize * waiting.card + config.trampolineCodeSize :=
              (Nat.mul_le_mul_left _ (Finset.card_insert_le ..)).trans (Nat.mul_succ ..).le
            rw [hsame]
            change s.trampolineReservationMark - _ + _ ≤ s.trampolineAllocationMark
            omega
        found := fun m a ha => (hfound' m).2 (.inr (h.found m a ((hperm m).symm.trans ha)))
        range := fun m a ha => by
          rw [hsame]
          exact h.range m a ((hperm m).symm.trans ha)
        distinct := fun m m' a ha ha' =>
          h.distinct m m' a ((hperm m).symm.trans ha) ((hperm m').symm.trans ha')
        listed := fun m hm => by
          rw [hsame] at hm
          exact (h.listed m hm).imp fun a ha => (hperm m).trans ha
        upToDate := fun m a ha => by
          rw [hsame]
          exact h.upToDate m a ((hperm m).symm.trans ha)
        handed := fun m p hp => by
          obtain ⟨⟨a, ha⟩, hrest⟩ := h.handed m p hp
          refine ⟨⟨a, (hperm m).trans ha⟩, ?_⟩
          rw [hsame]
          exact hrest
        recorded := fun m a ha => by
          have ha' := (hperm m).symm.trans ha
          have hm : m ≠ method := by
            rintro rfl
            rw [hnone] at ha'
            cases ha'
          have hentry : s'.entry m = s.entry m := by
            rw [hs']
            exact Function.update_of_ne hm ..
          have hcode : s'.code = s.code := by
            rw [hsame]
          rw [hentry, hcode]
          exact h.recorded m a ha' }

/-- `replaceTrampoline` for a method whose permanent trampoline cannot be modified in place. -/
theorem Inv.replaceTemporary [DecidableEq PC] (h : Inv config s last) {a : ℕ}
    (ha : s.permanent method = some a) (pc : PC) (allocated : Bool) :
    let r := exec config ⟨s, last⟩ (.replaceTrampoline method pc true allocated)
    Inv config r.cache r.lastTemporary := by
  intro r
  have hr : r = exec config ⟨s, last⟩ (.replaceTrampoline method pc true allocated) := rfl
  simp only [exec, ha, TrampolineCache.replaceTrampoline, if_true, Option.isSome_some, and_self]
    at hr
  by_cases hfull : s.tempTrampolineNext ≥ s.tempTrampolineTop
  · obtain ⟨blocks, full, hsave, hblocks, hkeep, hsaved, hfull'⟩ :=
      saveTempTrampoline_spec config (s.setStartPC method pc) method allocated
    have halloc : (s.setStartPC method pc).allocateTempTrampoline config =
        (none, s.setStartPC method pc) := if_pos hfull
    simp only [halloc, hsave, createTrampoline, Option.isSome_none, Bool.false_eq_true, if_false]
      at hr
    rw [hr]
    exact h.save ha le_rfl hblocks hkeep hsaved hfull'
  · obtain ⟨blocks, full, hsave, hblocks, hkeep, hsaved, hfull'⟩ :=
      saveTempTrampoline_spec config { s.setStartPC method pc with
        tempTrampolineNext := s.tempTrampolineNext + config.trampolineCodeSize } method allocated
    have halloc : (s.setStartPC method pc).allocateTempTrampoline config =
        (some s.tempTrampolineNext, { s.setStartPC method pc with
          tempTrampolineNext := s.tempTrampolineNext + config.trampolineCodeSize }) := if_neg hfull
    simp only [halloc, hsave, Option.isSome_some, if_true] at hr
    rw [hr]
    exact (h.save ha (Nat.le_add_right ..) hblocks hkeep hsaved hfull').hand ha hsaved h.temporary

theorem Inv.replaceTrampoline [DecidableEq PC] (h : Inv config s last)
    (hsize : 0 < config.trampolineCodeSize) (hfound : s.findResolvedMethod config method = true)
    (pc : PC) (needSync allocated : Bool) :
    let r := exec config ⟨s, last⟩ (.replaceTrampoline method pc needSync allocated)
    Inv config r.cache r.lastTemporary := by
  intro r
  have hr : r = exec config ⟨s, last⟩ (.replaceTrampoline method pc needSync allocated) := rfl
  cases hp : s.permanent method with
  | none =>
    obtain ⟨hlt, hinv⟩ := h.writeNew hsize hfound hp pc
    have halloc : (s.setStartPC method pc).allocateTrampoline config =
        (some (s.trampolineAllocationMark - config.trampolineCodeSize), { s.setStartPC method pc with
          trampolineAllocationMark := s.trampolineAllocationMark - config.trampolineCodeSize }) :=
      if_pos hlt
    have hresult : r = ⟨s.writePermanent method
        (s.trampolineAllocationMark - config.trampolineCodeSize)
        (s.trampolineAllocationMark - config.trampolineCodeSize) pc,
        Function.update last method none⟩ := by
      rw [hr]
      cases needSync with
      | false =>
        simp [exec, hp, TrampolineCache.replaceTrampoline, newTrampoline, halloc, createTrampoline,
          recordStartPC, TrampolineCache.writePermanent]
        exact ⟨rfl, rfl⟩
      | true =>
        simp [exec, hp, TrampolineCache.replaceTrampoline, newTrampoline, halloc, createTrampoline,
          recordStartPC, TrampolineCache.writePermanent]
        exact ⟨rfl, rfl⟩
    rw [hresult]
    exact hinv
  | some a =>
    cases needSync with
    | true => exact h.replaceTemporary hp pc allocated
    | false =>
      have hp' : (s.entry method).currentTrampoline = some a := hp
      have hresult : r = ⟨s.writePermanent method a s.trampolineAllocationMark pc,
          Function.update last method none⟩ := by
        rw [hr]
        simp [exec, hp, hp', TrampolineCache.replaceTrampoline, createTrampoline, recordStartPC,
          TrampolineCache.writePermanent, setStartPC]
      rw [hresult]
      exact h.writeInPlace hp pc

theorem Inv.newStartPC (h : Inv config s last) (hfound : s.findResolvedMethod config method = false)
    (pc : PC) : Inv config (s.setStartPC method pc) last :=
  { h with
    upToDate := fun m a ha => by
      have hm : m ≠ method := by
        rintro rfl
        rw [h.found m a ha] at hfound
        cases hfound
      rcases h.upToDate m a ha with hcode | hrest
      · exact .inl (hcode.trans (congrArg some (Function.update_of_ne hm ..).symm))
      · exact .inr hrest }

/-! ### Synchronisation -/

variable [DecidableEq PC]

/-- The methods that a synchronisation goes through. -/
def synchronisedMethods (config : TrampolineConfig M) (s : TrampolineCache M PC) : List M :=
  if s.fullSyncRequired then s.tableEntries config else s.listed

theorem syncTempTrampolines_eq (hdistinct : s.Distinct) :
    s.syncTempTrampolines config =
      let s' := (s.synchronisedMethods config).foldl (syncEntry s.fullSyncRequired) s
      { s' with
        trampolineSyncList := emptyBlocks s'.trampolineSyncList
        fullSyncRequired := false
        tempTrampolineNext := s'.tempTrampolineBase } := by
  rw [syncTempTrampolines, synchronisedMethods]
  cases hfull : s.fullSyncRequired with
  | true => rfl
  | false =>
    have hrest := (rewritten_foldl hdistinct false s.listed).rest
    have hflag : (s.listed.foldl (syncEntry false) s).fullSyncRequired = false := by
      rw [hrest]
      exact hfull
    have hsame : s.listed.foldl rewrite s = s.listed.foldl (syncEntry false) s := rfl
    simp only [Bool.false_eq_true, if_false, hsame, hflag]

/-- A full synchronisation goes by a start PC that a temporary trampoline has been given. -/
def Misled (s : TrampolineCache M PC) (last : M → Option PC) : Prop :=
  s.fullSyncRequired = true ∧ ∃ method trampoline, s.permanent method = some trampoline ∧
    last method = some (s.startPC method) ∧ s.code trampoline ≠ some (s.startPC method)

omit [DecidableEq PC] in
theorem Inv.mem_tableEntries (h : Inv config s last) (htable : 0 < config.tableSize) {m : M} {a : ℕ}
    (ha : s.permanent m = some a) : m ∈ s.tableEntries config :=
  List.mem_flatMap.2 ⟨bucketOf config m, List.mem_range.2 (Nat.mod_lt _ htable),
    List.contains_iff_mem.1 (h.found m a ha)⟩

theorem Inv.synchronised_iff (h : Inv config s last) (htable : 0 < config.tableSize) :
    (s.syncTempTrampolines config).Synchronised ↔ ¬ s.Misled last := by
  rw [syncTempTrampolines_eq h.distinct]
  have hr := rewritten_foldl h.distinct s.fullSyncRequired (s.synchronisedMethods config)
  generalize (s.synchronisedMethods config).foldl (syncEntry s.fullSyncRequired) s = s' at hr ⊢
  have hiff : Synchronised { s' with
      trampolineSyncList := emptyBlocks s'.trampolineSyncList
      fullSyncRequired := false
      tempTrampolineNext := s'.tempTrampolineBase } ↔
      ∀ m a, s.permanent m = some a → s'.code a = some (s.startPC m) := by
    change (∀ m a, s'.permanent m = some a → s'.code a = some (s'.startPC m)) ↔ _
    simp only [hr.permanent, hr.startPC]
  refine hiff.trans ⟨fun hsync hmisled => ?_, fun hnot m a ha => ?_⟩
  · obtain ⟨hfull, m, a, ha, hlast, hcode⟩ := hmisled
    have hcur : (s.entry m).currentStartPC = some (s.startPC m) := by
      rw [h.recorded m a ha, hlast]
      rfl
    apply hcode
    rw [← (hr.kept m a ha (.inr ⟨hfull, hcur⟩)).1]
    exact hsync m a ha
  · cases hfull : s.fullSyncRequired with
    | true =>
      have hmem : m ∈ s.synchronisedMethods config := by
        rw [synchronisedMethods, hfull, if_pos rfl]
        exact h.mem_tableEntries htable ha
      by_cases hcur : (s.entry m).currentStartPC = some (s.startPC m)
      · rw [(hr.kept m a ha (.inr ⟨hfull, hcur⟩)).1]
        by_contra hcode
        rw [h.recorded m a ha] at hcur
        cases hlast : last m with
        | none =>
          rw [hlast, Option.none_or] at hcur
          exact hcode hcur
        | some p =>
          rw [hlast, Option.some_or] at hcur
          exact hnot ⟨hfull, m, a, ha, hlast.trans hcur, hcode⟩
      · exact (hr.done m a ha hmem fun _ => hcur).1
    | false =>
      have hlist : s.synchronisedMethods config = s.listed := by
        rw [synchronisedMethods, hfull, if_neg Bool.false_ne_true]
      rw [hlist, hfull] at hr
      by_cases hmem : m ∈ s.listed
      · exact (hr.done m a ha hmem fun hf => by cases hf).1
      · rw [(hr.kept m a ha (.inl hmem)).1]
        rcases h.upToDate m a ha with hcode | hlisted | hf
        · exact hcode
        · exact absurd hlisted hmem
        · rw [hfull] at hf
          cases hf

/-- After a synchronisation that has done its work nothing is waiting for the next one. -/
theorem Inv.synchronise (h : Inv config s last) (htable : 0 < config.tableSize)
    (hsync : (s.syncTempTrampolines config).Synchronised) :
    Inv config (s.syncTempTrampolines config) fun _ => none := by
  rw [syncTempTrampolines_eq h.distinct] at hsync ⊢
  have hr := rewritten_foldl h.distinct s.fullSyncRequired (s.synchronisedMethods config)
  generalize (s.synchronisedMethods config).foldl (syncEntry s.fullSyncRequired) s = s'
    at hr hsync ⊢
  have hrest := hr.rest
  have hperm := hr.permanent
  have hnone : ∀ m : M, m ∉ (emptyBlocks s'.trampolineSyncList).flatMap
      TempTrampolineSyncBlock.hashEntries := fun m hm => by
    rw [emptyBlocks_entries] at hm
    cases hm
  exact
    { temporary := le_rfl
      belowTemporary := by
        rw [hrest]
        exact h.belowTemporary
      reserved := by
        obtain ⟨waiting, hwaiting, hmarks⟩ := h.reserved
        refine ⟨waiting, fun m hm hp => hwaiting m ?_ ((hperm m).symm.trans hp), ?_⟩
        · rw [hrest] at hm
          exact hm
        · rw [hrest]
          exact hmarks
      found := fun m a ha => by
        rw [hrest]
        exact h.found m a ((hperm m).symm.trans ha)
      range := fun m a ha => by
        have hm := h.range m a ((hperm m).symm.trans ha)
        rw [hrest]
        exact hm
      distinct := fun m m' a ha ha' =>
        h.distinct m m' a ((hperm m).symm.trans ha) ((hperm m').symm.trans ha')
      listed := fun m hm => absurd hm (hnone m)
      upToDate := fun m a ha => .inl (hsync m a ha)
      handed := fun m p hp => by cases hp
      recorded := fun m a ha => by
        have ha' := (hperm m).symm.trans ha
        have hcode : s'.code a = some (s'.startPC m) := hsync m a ha
        change (s'.entry m).currentStartPC = Option.or none (s'.code a)
        rw [Option.none_or]
        by_cases hkept : m ∉ s.synchronisedMethods config ∨
            s.fullSyncRequired = true ∧ (s.entry m).currentStartPC = some (s.startPC m)
        · obtain ⟨hcode', hcur'⟩ := hr.kept m a ha' hkept
          rw [hcur', hcode', h.recorded m a ha']
          cases hlast : last m with
          | none => rfl
          | some p =>
            rcases hkept with hout | ⟨-, hcur⟩
            · -- a method that was given a temporary trampoline is gone through
              exfalso
              apply hout
              rw [synchronisedMethods]
              split
              · exact h.mem_tableEntries htable ha'
              · rename_i hfull
                exact (h.handed m p hlast).2.resolve_right hfull
            · rw [← hlast, ← h.recorded m a ha', hcur, ← hcode', hcode, hr.startPC]
        · rw [not_or, not_not, not_and] at hkept
          obtain ⟨hcode', hcur'⟩ := hr.done m a ha' hkept.1 hkept.2
          rw [hcur', hcode'] }

end Calls

section Runs

variable [DecidableEq PC]

/-- A run of calls, each permitted when it is made. -/
def PermittedRun (config : TrampolineConfig M) : Run M PC → List (Op M PC) → Prop
  | _, [] => True
  | r, op :: ops => Permitted config r.cache op ∧ PermittedRun config (exec config r op) ops

/-- Every synchronisation of a run leaves all permanent trampolines with the start PC of their
methods. -/
def SynchronisedRun (config : TrampolineConfig M) : Run M PC → List (Op M PC) → Prop
  | _, [] => True
  | r, op :: ops => (op = .syncTempTrampolines → (exec config r op).cache.Synchronised) ∧
      SynchronisedRun config (exec config r op) ops

/-- No full synchronisation of a run is misled. -/
def MeetsRun (config : TrampolineConfig M) : Run M PC → List (Op M PC) → Prop
  | _, [] => True
  | r, op :: ops => (op = .syncTempTrampolines → ¬ r.cache.Misled r.lastTemporary) ∧
      MeetsRun config (exec config r op) ops

omit [DecidableEq PC] in
theorem inv_initialState (trampolineBase tempTrampolineBase tempTrampolinesMax : ℕ)
    (code : ℕ → Option PC) (startPC : M → PC) :
    Inv config (initialState config trampolineBase tempTrampolineBase tempTrampolinesMax code startPC)
      fun _ => none where
  temporary := le_rfl
  belowTemporary := le_rfl
  reserved := ⟨∅, (fun m hm _ => by cases hm), le_rfl⟩
  found m a ha := by cases ha
  range m a ha := by cases ha
  distinct m m' a ha := by cases ha
  listed m hm := by
    simp only [listed, initialState] at hm
    split at hm <;> cases hm
  upToDate m a ha := by cases ha
  handed m p hp := by cases hp
  recorded m a ha := by cases ha

theorem Inv.exec_other {r : Run M PC} (h : Inv config r.cache r.lastTemporary)
    (hsize : 0 < config.trampolineCodeSize) {op : Op M PC} (hop : Permitted config r.cache op)
    (hne : op ≠ .syncTempTrampolines) :
    Inv config (exec config r op).cache (exec config r op).lastTemporary := by
  cases op with
  | reserveResolvedTrampoline method allocated => exact h.reserveResolvedTrampoline method allocated
  | findTrampoline method => exact h.findTrampoline hsize hop
  | replaceTrampoline method newTargetPC needSync allocated =>
    exact h.replaceTrampoline hsize hop newTargetPC needSync allocated
  | newStartPC method newTargetPC => exact h.newStartPC hop newTargetPC
  | syncTempTrampolines => exact absurd rfl hne

theorem synchronisedRun_iff (hsize : 0 < config.trampolineCodeSize) (htable : 0 < config.tableSize)
    {r : Run M PC} (h : Inv config r.cache r.lastTemporary) {ops : List (Op M PC)}
    (hops : PermittedRun config r ops) :
    SynchronisedRun config r ops ↔ MeetsRun config r ops := by
  induction ops generalizing r with
  | nil => exact Iff.rfl
  | cons op ops ih =>
    obtain ⟨hop, hops⟩ := hops
    by_cases hsync : op = .syncTempTrampolines
    · subst hsync
      have hiff := h.synchronised_iff htable
      constructor
      · rintro ⟨hdone, hrun⟩
        exact ⟨fun _ => hiff.1 (hdone rfl), (ih (h.synchronise htable (hdone rfl)) hops).1 hrun⟩
      · rintro ⟨hmeets, hrun⟩
        have hdone := hiff.2 (hmeets rfl)
        exact ⟨fun _ => hdone, (ih (h.synchronise htable hdone) hops).2 hrun⟩
    · have hnext := ih (h.exec_other hsize hop hsync) hops
      constructor
      · rintro ⟨-, hrun⟩
        exact ⟨fun heq => absurd heq hsync, hnext.1 hrun⟩
      · rintro ⟨-, hrun⟩
        exact ⟨fun heq => absurd heq hsync, hnext.2 hrun⟩

/-- The synchronisations of a run leave every permanent trampoline with its method's start PC
exactly when none that is full finds a trampoline out of date whose method has been given a
temporary trampoline for its start PC. -/
theorem synchronised_iff_not_misled (hsize : 0 < config.trampolineCodeSize)
    (htable : 0 < config.tableSize) (trampolineBase tempTrampolineBase tempTrampolinesMax : ℕ)
    (code : ℕ → Option PC) (startPC : M → PC) (ops : List (Op M PC))
    (hops : PermittedRun config ⟨initialState config trampolineBase tempTrampolineBase
      tempTrampolinesMax code startPC, fun _ => none⟩ ops) :
    SynchronisedRun config ⟨initialState config trampolineBase tempTrampolineBase
        tempTrampolinesMax code startPC, fun _ => none⟩ ops ↔
      MeetsRun config ⟨initialState config trampolineBase tempTrampolineBase
        tempTrampolinesMax code startPC, fun _ => none⟩ ops :=
  synchronisedRun_iff hsize htable (inv_initialState ..) hops

/-- A cache of two temporary trampolines, and blocks for one entry each. -/
def smallConfig : TrampolineConfig ℕ := ⟨8, 1, id, 2⟩

/-- One method is replaced and synchronised from the list. -/
theorem synchronised_one_method :
    SynchronisedRun smallConfig ⟨initialState smallConfig 0 96 2 (fun _ => none) fun _ => 10,
      fun _ => none⟩ [.reserveResolvedTrampoline 0 true, .findTrampoline 0,
        .replaceTrampoline 0 20 true false, .syncTempTrampolines] := by
  refine (synchronised_iff_not_misled (by decide) (by decide) _ _ _ _ _ _ ?_).2 ?_
  · exact ⟨trivial, rfl, rfl, trivial, trivial⟩
  · simp only [MeetsRun, reduceCtorEq, false_implies, true_and, forall_const, and_true]
    exact fun hmisled => absurd hmisled.1 (by decide)

/-- Both methods get temporary trampolines, the second one when there is no memory for another
block: the first one's trampoline stays out of date. -/
theorem full_synchronisation_misled :
    PermittedRun smallConfig ⟨initialState smallConfig 0 96 2 (fun _ => none) fun _ => 10,
      fun _ => none⟩ [.reserveResolvedTrampoline 0 true, .findTrampoline 0,
        .reserveResolvedTrampoline 1 true, .findTrampoline 1, .replaceTrampoline 0 20 true true,
        .replaceTrampoline 1 30 true false, .syncTempTrampolines] ∧
    ¬ SynchronisedRun smallConfig ⟨initialState smallConfig 0 96 2 (fun _ => none) fun _ => 10,
      fun _ => none⟩ [.reserveResolvedTrampoline 0 true, .findTrampoline 0,
        .reserveResolvedTrampoline 1 true, .findTrampoline 1, .replaceTrampoline 0 20 true true,
        .replaceTrampoline 1 30 true false, .syncTempTrampolines] := by
  refine ⟨⟨trivial, rfl, trivial, rfl, rfl, rfl, trivial, trivial⟩, fun hrun => ?_⟩
  obtain ⟨-, -, -, -, -, -, hsync, -⟩ := hrun
  exact absurd (hsync rfl 0 88 (by decide)) (by decide)

end Runs

end OMR.Compiler.TrampolineCache
