import Mathlib.Tactic

/-!
# Open addressing with linear probing

A table of `n` slots holds each entry at the first slot behind its home that was empty
when it came, where behind the last slot comes the first one. An entry is found because no
slot between its home and its own is empty. Closing the gap that a removal leaves restores
this: one after the other, the entries of the run behind the gap are moved into it where
their probe sequence meets it.
-/

namespace OMR.Lib.LinearProbing

variable {α κ : Type*} {n : ℕ}

/-- The slot behind a slot. -/
def next (n i : ℕ) : ℕ := if i + 1 = n then 0 else i + 1

/-- The first slot from `i` on that the probe sequence stops at. -/
def walk (n : ℕ) (stop : Option α → Bool) (slots : ℕ → Option α) : (fuel : ℕ) → ℕ → Option ℕ
  | 0, _ => none
  | fuel + 1, i => if stop (slots i) then some i else walk n stop slots fuel (next n i)

/-- The slots that a probe sequence from `i` passes before it comes to `p`. -/
def Before (i p b : ℕ) : Prop := (i ≤ p ∧ i ≤ b ∧ b < p) ∨ (p < i ∧ (i ≤ b ∨ b < p))

instance (i p b : ℕ) : Decidable (Before i p b) := inferInstanceAs (Decidable (_ ∨ _))

/-- The entries of a table. -/
def stored (n : ℕ) (slots : ℕ → Option α) : List α := (List.range n).filterMap slots

/-- Close the gap in the run of entries from `node` on. -/
def closeGap [DecidableEq α] (n : ℕ) (home : α → ℕ) :
    (fuel : ℕ) → (node : ℕ) → (slots : ℕ → Option α) → Option (ℕ → Option α)
  | 0, _, _ => none
  | fuel + 1, node, slots =>
    match slots node with
    | none => some slots
    | some x =>
      match walk n (fun c => c = none ∨ c = some x) slots n (home x) with
      | none => none
      | some newLocation =>
        closeGap n home fuel (next n node)
          (if slots newLocation = none then
            Function.update (Function.update slots newLocation (some x)) node none
          else slots)

section Walk

variable {stop : Option α → Bool} {slots : ℕ → Option α} {i p : ℕ}

theorem next_lt (hi : i < n) : next n i < n := by
  unfold next
  split <;> omega

theorem not_before_self (i b : ℕ) : ¬Before i i b := by
  unfold Before
  omega

theorem before_next (hp : p < n) (hne : i ≠ p) (b : ℕ) (hb : b < n) :
    Before i p b ↔ b = i ∨ Before (next n i) p b := by
  unfold Before next
  split <;> omega

/-- The number of steps from a slot to another one. -/
def distance (n i p : ℕ) : ℕ := if i ≤ p then p - i else p + n - i

theorem distance_lt (hi : i < n) (hp : p < n) : distance n i p < n := by
  unfold distance
  split <;> omega

theorem distance_next (hi : i < n) (hp : p < n) (hne : i ≠ p) :
    distance n i p = distance n (next n i) p + 1 := by
  unfold distance next
  split_ifs <;> omega

theorem walk_eq_some {fuel : ℕ} (hi : i < n) (hp : p < n) (hfuel : distance n i p < fuel)
    (hstop : stop (slots p) = true) (hpass : ∀ b < n, Before i p b → stop (slots b) = false) :
    walk n stop slots fuel i = some p := by
  induction fuel generalizing i with
  | zero => omega
  | succ fuel ih =>
    rw [walk]
    by_cases hip : i = p
    · rw [hip, if_pos hstop]
    · have hfirst := hpass i hi ((before_next hp hip i hi).2 (Or.inl rfl))
      rw [if_neg (by rw [hfirst]; simp)]
      have hdist := distance_next hi hp hip
      exact ih (next_lt hi) (by omega) fun b hb hbefore =>
        hpass b hb ((before_next hp hip b hb).2 (Or.inr hbefore))

/-- If the probe sequence stops somewhere, it stops somewhere first. -/
theorem exists_first (stop : Option α → Bool) (slots : ℕ → Option α) {e : ℕ} (hi : i < n)
    (he : e < n) (hstop : stop (slots e) = true) :
    ∃ p < n, stop (slots p) = true ∧ ∀ b < n, Before i p b → stop (slots b) = false := by
  induction hd : distance n i e generalizing i with
  | zero =>
    have hie : i = e := by
      unfold distance at hd
      split at hd <;> omega
    exact ⟨e, he, hstop, fun b _ hb => absurd (hie ▸ hb) (not_before_self e b)⟩
  | succ d ih =>
    by_cases hfirst : stop (slots i) = true
    · exact ⟨i, hi, hfirst, fun b _ hb => absurd hb (not_before_self i b)⟩
    · have hie : i ≠ e := by
        rintro rfl
        exact hfirst hstop
      have hdist := distance_next hi he hie
      obtain ⟨p, hp, hstop', hpass⟩ := ih (next_lt hi) (by omega)
      refine ⟨p, hp, hstop', fun b hb hbefore => ?_⟩
      by_cases hip : i = p
      · exact absurd (hip ▸ hstop') hfirst
      · obtain rfl | hbefore := (before_next hp hip b hb).1 hbefore
        · simpa using hfirst
        · exact hpass b hb hbefore

end Walk

section Stored

variable {slots : ℕ → Option α} {p : ℕ} {x : α}

theorem mem_stored : x ∈ stored n slots ↔ ∃ p < n, slots p = some x := by
  simp [stored]

/-- An entry that comes into an empty slot is stored besides the others. -/
theorem stored_update_some (hp : p < n) (hempty : slots p = none) (x : α) :
    (stored n (Function.update slots p (some x))).Perm (x :: stored n slots) := by
  have hrange : List.range n = List.range p ++ p :: List.range' (p + 1) (n - (p + 1)) := by
    have h := List.range'_append_1 (s := 0) (m := p) (n := n - p)
    rw [Nat.zero_add, Nat.add_sub_cancel' hp.le, show n - p = n - (p + 1) + 1 by omega,
      List.range'_succ] at h
    rw [List.range_eq_range', List.range_eq_range', h]
  have hsame : ∀ l : List ℕ, p ∉ l →
      l.filterMap (Function.update slots p (some x)) = l.filterMap slots := by
    intro l hl
    exact List.filterMap_congr fun b hb => Function.update_of_ne (ne_of_mem_of_not_mem hb hl) ..
  rw [stored, stored, hrange, List.filterMap_append, List.filterMap_append,
    List.filterMap_cons_some (Function.update_self ..), List.filterMap_cons_none hempty,
    hsame _ (by simp), hsame _ (by simp)]
  exact List.perm_middle

/-- A table that has fewer entries than slots has an empty slot. -/
theorem exists_empty (h : (stored n slots).length < n) : ∃ e < n, slots e = none := by
  by_contra hfull
  have hsome : ∀ i ∈ List.range n, (slots i).isSome = true := by
    intro i hi
    rw [Option.isSome_iff_ne_none]
    exact fun hempty => hfull ⟨i, List.mem_range.1 hi, hempty⟩
  rw [stored, List.length_filterMap_eq_countP, List.countP_eq_length.2 hsome, List.length_range] at h
  omega

theorem stored_update_none (hp : p < n) (hslot : slots p = some x) :
    (stored n slots).Perm (x :: stored n (Function.update slots p none)) := by
  have h := stored_update_some hp (Function.update_self p none slots) x
  rwa [Function.update_idem, ← hslot, Function.update_eq_self] at h

end Stored

/-- Every entry is at a slot that the probe sequence from its home comes to. -/
structure Probed (n : ℕ) (home : α → ℕ) (slots : ℕ → Option α) : Prop where
  home_lt : ∀ p < n, ∀ x, slots p = some x → home x < n
  reached : ∀ p < n, ∀ x, slots p = some x → ∀ b < n, Before (home x) p b → slots b ≠ none

/-- No two slots hold entries of one key. -/
def Distinct (n : ℕ) (key : α → κ) (slots : ℕ → Option α) : Prop :=
  ∀ p < n, ∀ q < n, ∀ x y, slots p = some x → slots q = some y → key x = key y → p = q

namespace Probed

variable {home : α → ℕ} {slots : ℕ → Option α} {key : α → κ} {p q : ℕ} {x : α}

theorem empty (n : ℕ) (home : α → ℕ) : Probed n home fun _ => none :=
  ⟨fun _ _ _ h => absurd h (by simp), fun _ _ _ h => absurd h (by simp)⟩

/-- The probe sequence for a key comes to the entry that has it. -/
theorem walk_present (h : Probed n home slots) (hd : Distinct n key slots) (hp : p < n)
    (hslot : slots p = some x) {eq : α → Bool} (heq : ∀ y, eq y = true ↔ key y = key x) :
    walk n (fun c => c.all eq) slots n (home x) = some p := by
  have hhome := h.home_lt p hp x hslot
  refine walk_eq_some hhome hp (distance_lt hhome hp) ?_ fun b hb hbefore => ?_
  · rw [hslot]
    exact (heq x).2 rfl
  · obtain ⟨y, hy⟩ := Option.ne_none_iff_exists'.1 (h.reached p hp x hslot b hb hbefore)
    have hne : key y ≠ key x := by
      intro hkey
      have := hd b hb p hp y x hy hslot hkey
      unfold Before at hbefore
      omega
    rw [hy]
    simpa using mt (heq y).1 hne

/-- The probe sequence for a key that is not there comes to an empty slot. -/
theorem walk_absent {i e : ℕ} {eq : α → Bool} (hi : i < n) (he : e < n) (hempty : slots e = none)
    (hnew : ∀ p < n, ∀ y, slots p = some y → eq y = false) :
    ∃ p < n, walk n (fun c => c.all eq) slots n i = some p ∧ slots p = none ∧
      ∀ b < n, Before i p b → slots b ≠ none := by
  obtain ⟨p, hp, hstop, hpass⟩ :=
    exists_first (fun c => c.all eq) slots hi he (by rw [hempty]; rfl)
  refine ⟨p, hp, walk_eq_some hi hp (distance_lt hi hp) hstop hpass, ?_, fun b hb hbefore => ?_⟩
  · cases hslot : slots p with
    | none => rfl
    | some y =>
      rw [hslot] at hstop
      exact absurd hstop (by simpa using hnew p hp y hslot)
  · intro hnone
    have := hpass b hb hbefore
    rw [hnone] at this
    cases this

/-- The same for the probe sequence that looks for an empty slot only. -/
theorem walk_empty {i e : ℕ} (hi : i < n) (he : e < n) (hempty : slots e = none) :
    ∃ p < n, walk n (fun c => c = none) slots n i = some p ∧ slots p = none ∧
      ∀ b < n, Before i p b → slots b ≠ none := by
  have hsame : (fun c : Option α => decide (c = none)) = fun c => c.all fun _ => false := by
    funext c
    cases c <;> rfl
  rw [hsame]
  exact walk_absent hi he hempty fun _ _ _ _ => rfl

/-- An entry comes to the slot that its probe sequence has ended at. -/
theorem insert (h : Probed n home slots) (hhome : home x < n)
    (hpass : ∀ b < n, Before (home x) p b → slots b ≠ none) :
    Probed n home (Function.update slots p (some x)) := by
  have hmono : ∀ b, slots b ≠ none → Function.update slots p (some x) b ≠ none := by
    intro b hb
    by_cases hbp : b = p
    · simp [hbp]
    · rwa [Function.update_of_ne hbp]
  refine ⟨fun q hq y hy => ?_, fun q hq y hy b hb hbefore => ?_⟩
  · by_cases hqp : q = p
    · rw [hqp, Function.update_self, Option.some.injEq] at hy
      exact hy ▸ hhome
    · exact h.home_lt q hq y (by rwa [Function.update_of_ne hqp] at hy)
  · refine hmono b ?_
    by_cases hqp : q = p
    · rw [hqp, Function.update_self, Option.some.injEq] at hy
      exact hpass b hb (by rwa [hy, ← hqp])
    · exact h.reached q hq y (by rwa [Function.update_of_ne hqp] at hy) b hb hbefore

end Probed

theorem Distinct.insert {key : α → κ} {slots : ℕ → Option α} {p : ℕ} {x : α}
    (hd : Distinct n key slots) (hnew : ∀ q < n, ∀ y, slots q = some y → key y ≠ key x) :
    Distinct n key (Function.update slots p (some x)) := by
  intro a ha b hb y z hy hz hkey
  by_cases hap : a = p <;> by_cases hbp : b = p
  · rw [hap, hbp]
  · rw [hap, Function.update_self, Option.some.injEq] at hy
    rw [Function.update_of_ne hbp] at hz
    exact absurd (hkey.symm.trans (congrArg key hy.symm)) (hnew b hb z hz)
  · rw [hbp, Function.update_self, Option.some.injEq] at hz
    rw [Function.update_of_ne hap] at hy
    exact absurd (hkey.trans (congrArg key hz.symm)) (hnew a ha y hy)
  · rw [Function.update_of_ne hap] at hy
    rw [Function.update_of_ne hbp] at hz
    exact hd a ha b hb y z hy hz hkey

theorem Distinct.erase {key : α → κ} {slots : ℕ → Option α} (p : ℕ)
    (hd : Distinct n key slots) : Distinct n key (Function.update slots p none) := by
  intro a ha b hb y z hy hz hkey
  by_cases hap : a = p
  · rw [hap, Function.update_self] at hy
    cases hy
  by_cases hbp : b = p
  · rw [hbp, Function.update_self] at hz
    cases hz
  rw [Function.update_of_ne hap] at hy
  rw [Function.update_of_ne hbp] at hz
  exact hd a ha b hb y z hy hz hkey

/-- The state of closing a gap: the run from `d` to `c` has been gone through, and `g` is the gap
that is left in it. Only the entries from `c` on may have been separated from their homes, and
only by this gap. The slot `e` is empty and ends the run at the latest. -/
structure Closing (home : α → ℕ) (n d e c g : ℕ) (slots : ℕ → Option α) : Prop where
  lt : d < n ∧ e < n ∧ c < n ∧ g < n
  gap : slots g = none
  gap_before : Before d c g
  stop : slots e = none
  stop_ne : e ≠ g
  stop_after : ¬Before d c e
  home_lt : ∀ p < n, ∀ x, slots p = some x → home x < n
  weak : ∀ p < n, ∀ x, slots p = some x → ∀ b < n, Before (home x) p b → slots b ≠ none ∨ b = g
  strong : ∀ p < n, ∀ x, slots p = some x → Before d c p →
    ∀ b < n, Before (home x) p b → slots b ≠ none

namespace Closing

variable {home : α → ℕ} {slots : ℕ → Option α} {key : α → κ} {d e c g : ℕ} {x : α}

/-- What a removal leaves. -/
theorem start (h : Probed n home slots) (hd : d < n) (he : e < n) (hempty : slots e = none)
    (hne : e ≠ d) : Closing home n d e (next n d) d (Function.update slots d none) := by
  have hbefore : ∀ b < n, Before d (next n d) b ↔ b = d := by
    intro b hb
    unfold Before next
    split <;> omega
  have hold : ∀ {p x}, Function.update slots d none p = some x → slots p = some x := by
    intro p x hx
    by_cases hpd : p = d
    · rw [hpd, Function.update_self] at hx
      cases hx
    · rwa [Function.update_of_ne hpd] at hx
  refine ⟨⟨hd, he, next_lt hd, hd⟩, Function.update_self .., (hbefore d hd).2 rfl, ?_, hne,
    fun hb => hne ((hbefore e he).1 hb), fun p hp x hx => h.home_lt p hp x (hold hx), ?_, ?_⟩
  · rwa [Function.update_of_ne hne]
  · intro p hp x hx b hb hpass
    by_cases hbd : b = d
    · exact Or.inr hbd
    · left
      rw [Function.update_of_ne hbd]
      exact h.reached p hp x (hold hx) b hb hpass
  · intro p hp x hx hproc
    rw [(hbefore p hp).1 hproc, Function.update_self] at hx
    cases hx

/-- At an empty slot the run ends, and no entry is separated from its home. -/
theorem finish (h : Closing home n d e c g slots) (hc : slots c = none) :
    Probed n home slots := by
  refine ⟨h.home_lt, fun p hp x hx b hb hpass => ?_⟩
  obtain ⟨hdn, -, hcn, hgn⟩ := h.lt
  by_cases hproc : Before d c p
  · exact h.strong p hp x hx hproc b hb hpass
  · obtain hfull | rfl := h.weak p hp x hx b hb hpass
    · exact hfull
    · -- the way from the home over the gap to `p` comes to `c` as well
      have hpc : p ≠ c := by
        rintro rfl
        rw [hc] at hx
        cases hx
      have hhome := h.home_lt p hp x hx
      have hbefore := h.gap_before
      have hover : Before (home x) p c := by
        unfold Before at *
        omega
      obtain hfull | hcg := h.weak p hp x hx c hcn hover
      · exact absurd hc hfull
      · rw [hcg] at hbefore
        exact absurd hbefore (by unfold Before; omega)

theorem not_last (h : Closing home n d e c g slots) (hc : slots c ≠ none) :
    ∀ b < n, Before d (next n c) b ↔ Before d c b ∨ b = c := by
  intro b hb
  obtain ⟨hdn, hen, hcn, hgn⟩ := h.lt
  have hec : e ≠ c := by
    rintro rfl
    exact hc h.stop
  have hbefore := h.gap_before
  have hafter := h.stop_after
  unfold Before next at *
  split <;> omega

/-- The probe sequence of the entry at `c` ends at the gap, if it comes there, and otherwise
at the entry itself. -/
theorem walk_eq [DecidableEq α] (h : Closing home n d e c g slots) (hdist : Distinct n key slots)
    (hx : slots c = some x) :
    walk n (fun s => s = none ∨ s = some x) slots n (home x) =
      some (if Before (home x) c g then g else c) := by
  obtain ⟨hdn, hen, hcn, hgn⟩ := h.lt
  have hhome := h.home_lt c hcn x hx
  have hpass : ∀ b < n, Before (home x) c b → b ≠ g →
      decide (slots b = none ∨ slots b = some x) = false := by
    intro b hb hbefore hbg
    have hfull := (h.weak c hcn x hx b hb hbefore).resolve_right hbg
    have hother : slots b ≠ some x := by
      intro hbx
      have hbc := hdist b hb c hcn x x hbx hx rfl
      rw [hbc] at hbefore
      unfold Before at hbefore
      omega
    simp [hfull, hother]
  split
  · next hover =>
    refine walk_eq_some hhome hgn (distance_lt hhome hgn) (by simp [h.gap]) fun b hb hbefore => ?_
    refine hpass b hb ?_ ?_
    · unfold Before at *
      omega
    · rintro rfl
      unfold Before at hbefore
      omega
  · next hnot =>
    refine walk_eq_some hhome hcn (distance_lt hhome hcn) (by simp [hx]) fun b hb hbefore => ?_
    refine hpass b hb hbefore ?_
    rintro rfl
    exact hnot hbefore

/-- An entry whose probe sequence does not come to the gap stays. -/
theorem stay (h : Closing home n d e c g slots) (hx : slots c = some x)
    (hnot : ¬Before (home x) c g) : Closing home n d e (next n c) g slots := by
  obtain ⟨hdn, hen, hcn, hgn⟩ := h.lt
  have hlast := h.not_last (by rw [hx]; simp)
  have hec : e ≠ c := by
    rintro rfl
    rw [h.stop] at hx
    cases hx
  refine ⟨⟨hdn, hen, next_lt hcn, hgn⟩, h.gap, (hlast g hgn).2 (Or.inl h.gap_before), h.stop,
    h.stop_ne, ?_, h.home_lt, h.weak, ?_⟩
  · rw [hlast e hen]
    rintro (hb | hb)
    · exact h.stop_after hb
    · exact hec hb
  · intro p hp y hy hproc b hb hpass
    obtain hproc | rfl := (hlast p hp).1 hproc
    · exact h.strong p hp y hy hproc b hb hpass
    · rw [hy, Option.some.injEq] at hx
      obtain hfull | rfl := h.weak p hp y hy b hb hpass
      · exact hfull
      · exact absurd (hx ▸ hpass) hnot

/-- An entry whose probe sequence comes to the gap is moved there, and leaves the next gap. -/
theorem move (h : Closing home n d e c g slots) (hx : slots c = some x)
    (hover : Before (home x) c g) :
    Closing home n d e (next n c) c
      (Function.update (Function.update slots g (some x)) c none) := by
  obtain ⟨hdn, hen, hcn, hgn⟩ := h.lt
  have hlast := h.not_last (by rw [hx]; simp)
  have hbefore := h.gap_before
  have hafter := h.stop_after
  have hgc : g ≠ c := by
    rintro rfl
    unfold Before at hbefore
    omega
  have hec : e ≠ c := by
    rintro rfl
    rw [h.stop] at hx
    cases hx
  have hself : Function.update (Function.update slots g (some x)) c none g = some x := by
    rw [Function.update_of_ne hgc, Function.update_self]
  have hother : ∀ b, b ≠ c → b ≠ g →
      Function.update (Function.update slots g (some x)) c none b = slots b := by
    intro b hbc hbg
    rw [Function.update_of_ne hbc, Function.update_of_ne hbg]
  have hold : ∀ p y, Function.update (Function.update slots g (some x)) c none p = some y →
      p ≠ c ∧ (p = g ∧ y = x ∨ p ≠ g ∧ slots p = some y) := by
    intro p y hy
    have hpc : p ≠ c := by
      rintro rfl
      rw [Function.update_self] at hy
      cases hy
    refine ⟨hpc, ?_⟩
    by_cases hpg : p = g
    · rw [hpg, hself, Option.some.injEq] at hy
      exact Or.inl ⟨hpg, hy.symm⟩
    · exact Or.inr ⟨hpg, by rwa [hother p hpc hpg] at hy⟩
  have hhome := h.home_lt c hcn x hx
  -- the way from the home to the gap has no other gap in it
  have hway : ∀ b < n, Before (home x) g b → b ≠ c ∧ b ≠ g ∧ slots b ≠ none := by
    intro b hb hpass
    have hbg : b ≠ g := by
      rintro rfl
      exact absurd hpass (by unfold Before; omega)
    have hbc : b ≠ c := by
      rintro rfl
      unfold Before at *
      omega
    refine ⟨hbc, hbg, (h.weak c hcn x hx b hb ?_).resolve_right hbg⟩
    unfold Before at *
    omega
  refine ⟨⟨hdn, hen, next_lt hcn, hcn⟩, Function.update_self .., (hlast c hcn).2 (Or.inr rfl), ?_,
    hec, ?_, ?_, ?_, ?_⟩
  · rw [hother e hec h.stop_ne]
    exact h.stop
  · rw [hlast e hen]
    rintro (hb | hb)
    · exact hafter hb
    · exact hec hb
  · intro p hp y hy
    obtain ⟨-, ⟨-, rfl⟩ | ⟨-, hy⟩⟩ := hold p y hy
    · exact hhome
    · exact h.home_lt p hp y hy
  · intro p hp y hy b hb hpass
    by_cases hbc : b = c
    · exact Or.inr hbc
    left
    obtain ⟨-, ⟨rfl, rfl⟩ | ⟨-, hy⟩⟩ := hold p y hy
    · obtain ⟨-, hbg, hfull⟩ := hway b hb hpass
      rwa [hother b hbc hbg]
    · by_cases hbg : b = g
      · rw [hbg, hself]
        simp
      · rw [hother b hbc hbg]
        exact (h.weak p hp y hy b hb hpass).resolve_right hbg
  · intro p hp y hy hproc b hb hpass
    obtain ⟨hpc, ⟨rfl, rfl⟩ | ⟨hpg, hslot⟩⟩ := hold p y hy
    · obtain ⟨hbc, hbg, hfull⟩ := hway b hb hpass
      rwa [hother b hbc hbg]
    · have hproc := ((hlast p hp).1 hproc).resolve_right hpc
      have hstrong := h.strong p hp y hslot hproc
      have hbc : b ≠ c := by
        rintro rfl
        -- such a way would go round over the empty slot
        have hround : Before (home y) p e := by
          have := h.home_lt p hp y hslot
          unfold Before at *
          omega
        exact hstrong e hen hround h.stop
      by_cases hbg : b = g
      · rw [hbg, hself]
        simp
      · rw [hother b hbc hbg]
        exact hstrong b hb hpass

end Closing

/-- Closing the gap that a removal leaves gives a table of the same entries that are all found. -/
theorem closeGap_spec [DecidableEq α] {home : α → ℕ} {key : α → κ} {d e c g fuel : ℕ}
    {slots : ℕ → Option α} (h : Closing home n d e c g slots) (hdist : Distinct n key slots)
    (hfuel : distance n c e < fuel) :
    ∃ slots', closeGap n home fuel c slots = some slots' ∧ Probed n home slots' ∧
      Distinct n key slots' ∧ (stored n slots').Perm (stored n slots) := by
  induction fuel generalizing c g slots with
  | zero => omega
  | succ fuel ih =>
    obtain ⟨hdn, hen, hcn, hgn⟩ := h.lt
    cases hx : slots c with
    | none =>
      refine ⟨slots, ?_, h.finish hx, hdist, List.Perm.refl _⟩
      unfold closeGap
      rw [hx]
    | some x =>
      have hce : c ≠ e := by
        rintro rfl
        rw [h.stop] at hx
        cases hx
      have hstep := distance_next hcn hen hce
      have hrun : closeGap n home (fuel + 1) c slots = closeGap n home fuel (next n c)
          (if Before (home x) c g then
            Function.update (Function.update slots g (some x)) c none
          else slots) := by
        conv_lhs => unfold closeGap
        rw [hx]
        dsimp only
        rw [h.walk_eq hdist hx]
        by_cases hover : Before (home x) c g
        · simp only [if_pos hover, if_pos h.gap]
        · simp only [if_neg hover]
          rw [if_neg (by rw [hx]; simp)]
      rw [hrun]
      split
      · next hover =>
        have hgc : g ≠ c := by
          rintro rfl
          rw [h.gap] at hx
          cases hx
        have hmoved : Function.update (Function.update slots g (some x)) c none =
            Function.update (Function.update slots c none) g (some x) :=
          Function.update_comm hgc.symm .. |>.symm
        have hempty : Function.update slots c none g = none := by
          rw [Function.update_of_ne hgc]
          exact h.gap
        have hnew : Distinct n key (Function.update (Function.update slots g (some x)) c none) := by
          rw [hmoved]
          refine (hdist.erase c).insert fun q hq y hy hkey => ?_
          by_cases hqc : q = c
          · rw [hqc, Function.update_self] at hy
            cases hy
          · rw [Function.update_of_ne hqc] at hy
            exact hqc (hdist q hq c hcn y x hy hx hkey)
        obtain ⟨slots', hrun, hprobed, hdist', hperm⟩ := ih (h.move hx hover) hnew (by omega)
        refine ⟨slots', hrun, hprobed, hdist', hperm.trans ?_⟩
        rw [hmoved]
        exact (stored_update_some hgn hempty x).trans (stored_update_none hcn hx).symm
      · next hnot =>
        exact ih (h.stay hx hnot) hdist (by omega)

/-- An entry is removed and the gap closed. -/
theorem remove_spec [DecidableEq α] {home : α → ℕ} {key : α → κ} {d e : ℕ} {x : α}
    {slots : ℕ → Option α} (h : Probed n home slots) (hdist : Distinct n key slots) (hd : d < n)
    (hx : slots d = some x) (he : e < n) (hempty : slots e = none) :
    ∃ slots', closeGap n home n (next n d) (Function.update slots d none) = some slots' ∧
      Probed n home slots' ∧ Distinct n key slots' ∧
      (stored n slots).Perm (x :: stored n slots') := by
  have hne : e ≠ d := by
    rintro rfl
    rw [hempty] at hx
    cases hx
  obtain ⟨slots', hrun, hprobed, hdist', hperm⟩ :=
    closeGap_spec (Closing.start h hd he hempty hne) (hdist.erase d)
      (distance_lt (next_lt hd) he)
  exact ⟨slots', hrun, hprobed, hdist',
    (stored_update_none hd hx).trans ((hperm.cons x).symm)⟩

end OMR.Lib.LinearProbing
