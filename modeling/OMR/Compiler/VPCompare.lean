import OMR.Compiler.VPConstraint

/-!
# Comparing numeric constraints

`mustBeEqual`, `mustBeNotEqual`, `mustBeLessThan` and `mustBeLessThanOrEqual`
with the accessors they read bounds through. A list answers for its upper bound
with its last element, except at 16 bits, where `getHighShort` reads the first
one; `mustBeLessThan` trusts that answer.

The accessors give no value where the source would dereference a `NULL` pointer
(a list without elements).
-/

namespace OMR.Compiler

open OMR.Lib

namespace VPSimple

/-- `getLowShort`, `getLowInt` and `getLowLong`: the bound of a constraint of the
width asked for, and the minimum of that type for any other constraint. -/
def getLowAt (w : Width) (s : VPSimple) : ℤ := if s.width = w then s.getLow else w.minSigned

/-- `getHighShort`, `getHighInt` and `getHighLong`. -/
def getHighAt (w : Width) (s : VPSimple) : ℤ := if s.width = w then s.getHigh else w.maxSigned

end VPSimple

namespace VPMergedConstraints

/-- `getLowShort`, `getLowInt` and `getLowLong` of a list, given the accessor of
its elements. -/
def getLowAt {α : Type} (f : α → Option ℤ) (l : List α) : Option ℤ := l.head?.bind f

/-- `getHighInt` and `getHighLong` read the last element, `getHighShort` reads the
first. -/
def getHighAt {α : Type} (w : Width) (f : α → Option ℤ) (l : List α) : Option ℤ :=
  match w with
  | .short => l.head?.bind f
  | .int => l.getLast?.bind f
  | .long => l.getLast?.bind f

end VPMergedConstraints

namespace Entry

def getLowAt (w : Width) : Entry → Option ℤ
  | simple s => some (s.getLowAt w)
  | list l => VPMergedConstraints.getLowAt (fun s => some (s.getLowAt w)) l

def getHighAt (w : Width) : Entry → Option ℤ
  | simple s => some (s.getHighAt w)
  | list l => VPMergedConstraints.getHighAt w (fun s => some (s.getHighAt w)) l

end Entry

namespace VPConstraint

def getLowAt (w : Width) : VPConstraint → Option ℤ
  | simple s => some (s.getLowAt w)
  | merged es => VPMergedConstraints.getLowAt (Entry.getLowAt w) es

def getHighAt (w : Width) : VPConstraint → Option ℤ
  | simple s => some (s.getHighAt w)
  | merged es => VPMergedConstraints.getHighAt w (Entry.getHighAt w) es

def getLowShort (c : VPConstraint) : Option ℤ := c.getLowAt .short

def getHighShort (c : VPConstraint) : Option ℤ := c.getHighAt .short

def getLowInt (c : VPConstraint) : Option ℤ := c.getLowAt .int

def getHighInt (c : VPConstraint) : Option ℤ := c.getHighAt .int

def getLowLong (c : VPConstraint) : Option ℤ := c.getLowAt .long

def getHighLong (c : VPConstraint) : Option ℤ := c.getHighAt .long

/-- A comparison of two bounds. -/
def compareBounds (cmp : ℤ → ℤ → Bool) (x y : Option ℤ) : Option Bool :=
  x.bind fun x => y.map fun y => cmp x y

/-- `mustBeLessThan` of the three simple classes and of `VPMergedConstraints`. -/
def mustBeLessThan (this other : VPConstraint) : Option Bool :=
  match this with
  | simple s => compareBounds (· < ·) (some s.getHigh) (other.getLowAt s.width)
  | merged es =>
    match mergedType es with
    | .short => compareBounds (· < ·) this.getHighShort other.getLowShort
    | .long => compareBounds (· < ·) this.getHighLong other.getLowLong
    | .int => compareBounds (· < ·) this.getHighInt other.getLowInt

/-- `mustBeLessThanOrEqual`: a list that is not of 64 bits is compared through the
32-bit accessors. -/
def mustBeLessThanOrEqual (this other : VPConstraint) : Option Bool :=
  match this with
  | simple s => compareBounds (· ≤ ·) (some s.getHigh) (other.getLowAt s.width)
  | merged es =>
    match mergedType es with
    | .long => compareBounds (· ≤ ·) this.getHighLong other.getLowLong
    | _ => compareBounds (· ≤ ·) this.getHighInt other.getLowInt

/-- `mustBeEqual`: only two constants of one width can be known to be equal. -/
def mustBeEqual (this other : VPConstraint) : Bool :=
  match this, other with
  | simple (.const w v), simple (.const w' v') => w = w' ∧ v' = v
  | _, _ => false

end VPConstraint

namespace VPSimple

/-- `mustBeNotEqual` for two constants or ranges. -/
def mustBeNotEqual (this other : VPSimple) : Bool :=
  this.width = other.width ∧ (this.getHigh < other.getLow ∨ this.getLow > other.getHigh)

/-- `mustBeNotEqual` for a list of one width: not equal to any of its elements. -/
def mustBeNotEqualAll {α : Type} (this : VPSimple) (w : Width) (f : α → Bool) (l : List α) : Bool :=
  this.width = w ∧ l.all f = true

end VPSimple

namespace VPConstraint

/-- The type of a list inside a list. -/
def listType : List VPSimple → Width
  | s :: _ => s.width
  | [] => .int

/-- `mustBeNotEqual` for a constant or range and an element of a list. -/
def simpleNotEqualEntry (s : VPSimple) : Entry → Bool
  | .simple t => s.mustBeNotEqual t
  | .list l => s.mustBeNotEqualAll (listType l) s.mustBeNotEqual l

/-- `mustBeNotEqual` for a constant or range and any constraint. -/
def simpleNotEqual (s : VPSimple) : VPConstraint → Bool
  | simple t => s.mustBeNotEqual t
  | merged es => s.mustBeNotEqualAll (mergedType es) (simpleNotEqualEntry s) es

/-- `mustBeNotEqual` of the three simple classes and of `VPMergedConstraints`. -/
def mustBeNotEqual (this other : VPConstraint) : Bool :=
  match this, other with
  | simple s, other => simpleNotEqual s other
  | merged es, simple t => simpleNotEqual t (merged es)
  | merged es, merged fs =>
    es.all fun
      | .simple s => simpleNotEqual s (merged fs)
      | .list l => l.all fun s => simpleNotEqual s (merged fs)

/-- `createExclusion` of the three constant classes. -/
def createExclusion (w : Width) (v : ℤ) : Outcome (Option VPConstraint) :=
  if v = w.minSigned then .done ((rangeCreate w (v + 1) w.maxSigned).map .simple)
  else if v = w.maxSigned then .done ((rangeCreate w w.minSigned (v - 1)).map .simple)
  else (VPMergedConstraints.create [(rangeCreate w w.minSigned (v - 1)).map .simple,
    (rangeCreate w (v + 1) w.maxSigned).map .simple]).bind fun c => .done (some c)

variable {w : Width} {a b c : VPConstraint}

/-- Leaving out one value gives a constraint for all the others. -/
theorem createExclusion_spec {v : ℤ} (hmin : w.minSigned ≤ v) (hmax : v ≤ w.maxSigned) :
    ∃ c, createExclusion w v = .done (some c) ∧ c.Valid w ∧
      ∀ x, x ∈ c.values ↔ w.minSigned ≤ x ∧ x ≤ w.maxSigned ∧ x ≠ v := by
  have hlt := w.minSigned_lt_maxSigned
  rw [createExclusion]
  split_ifs with hlow hhigh
  · obtain ⟨t, hcreate, ht, htw, hti⟩ := @exists_rangeCreate w (v + 1) w.maxSigned (by omega)
      (by omega) le_rfl (by omega)
    refine ⟨.simple t, by rw [hcreate]; rfl, .simple ht htw, fun x => ?_⟩
    have hl : t.getLow = v + 1 := congrArg Interval.low hti
    have hh : t.getHigh = w.maxSigned := congrArg Interval.high hti
    simp only [values, VPSimple.mem_values, hl, hh]
    omega
  · obtain ⟨t, hcreate, ht, htw, hti⟩ := @exists_rangeCreate w w.minSigned (v - 1) le_rfl
      (by omega) (by omega) (by omega)
    refine ⟨.simple t, by rw [hcreate]; rfl, .simple ht htw, fun x => ?_⟩
    have hl : t.getLow = w.minSigned := congrArg Interval.low hti
    have hh : t.getHigh = v - 1 := congrArg Interval.high hti
    simp only [values, VPSimple.mem_values, hl, hh]
    omega
  · obtain ⟨t, hcreate, ht, htw, hti⟩ := @exists_rangeCreate w w.minSigned (v - 1) le_rfl
      (by omega) (by omega) (by omega)
    obtain ⟨u, hcreate', hu, huw, hui⟩ := @exists_rangeCreate w (v + 1) w.maxSigned (by omega)
      (by omega) le_rfl (by omega)
    refine ⟨.merged ([t, u].map .simple), by rw [hcreate, hcreate']; rfl, .merged ?_, fun x => ?_⟩
    · refine ⟨le_rfl, by simp [ht, hu], by simp [htw, huw], ?_⟩
      simp only [List.map_cons, List.map_nil, hti, hui]
      refine ⟨?_, ?_⟩
      · intro i hi
        simp only [List.mem_cons, List.not_mem_nil, or_false] at hi
        rcases hi with rfl | rfl
        · show w.minSigned ≤ v - 1
          omega
        · show v + 1 ≤ w.maxSigned
          omega
      · simp only [List.pairwise_cons, List.mem_cons, List.not_mem_nil, or_false, forall_eq]
        refine ⟨by omega, by simp, List.Pairwise.nil⟩
    · rw [values_merged]
      simp only [List.map_cons, List.map_nil, hti, hui, mem_valuesOf_cons, mem_valuesOf_nil,
        or_false, Interval.mem_values]
      omega

/-- The lower bound of a constraint is its least value. -/
theorem Valid.getLowAt_isLeast (h : c.Valid w) : ∃ m, c.getLowAt w = some m ∧ IsLeast c.values m := by
  cases h with
  | @simple s hs hw =>
    exact ⟨s.getLow, congrArg some (if_pos hw), ⟨le_rfl, hs.low_le_high⟩, fun x hx => hx.1⟩
  | @merged l hl =>
    obtain ⟨s, l, rfl⟩ := List.exists_cons_of_length_pos (by have := hl.two_le; omega : 0 < l.length)
    refine ⟨s.getLow, congrArg some (if_pos (hl.width s (by simp))), ?_⟩
    rw [values_merged]
    exact hl.ordered.isLeast_head

/-- Where the accessor of the upper bound is right: everywhere but for a list of
16-bit constraints. -/
theorem Valid.getHighAt_isGreatest (h : c.Valid w)
    (hc : w = .short → ∀ es, c ≠ .merged es) :
    ∃ m, c.getHighAt w = some m ∧ IsGreatest c.values m := by
  cases h with
  | @simple s hs hw =>
    exact ⟨s.getHigh, congrArg some (if_pos hw), ⟨hs.low_le_high, le_rfl⟩, fun x hx => hx.2⟩
  | @merged l hl =>
    obtain ⟨l, s, rfl⟩ := List.eq_nil_or_concat' l |>.resolve_left
      (by rintro rfl; exact absurd hl.two_le (by simp))
    have hlast : ((l ++ [s]).map Entry.simple).getLast? = some (.simple s) := by simp
    refine ⟨s.getHigh, ?_, ?_⟩
    · have hs : s.getHighAt w = s.getHigh := if_pos (hl.width s (by simp))
      cases w with
      | short => exact absurd rfl (hc rfl _)
      | int =>
        show ((l ++ [s]).map Entry.simple).getLast?.bind _ = _
        rw [hlast, ← hs]
        rfl
      | long =>
        show ((l ++ [s]).map Entry.simple).getLast?.bind _ = _
        rw [hlast, ← hs]
        rfl
    · have hordered := hl.ordered
      rw [values_merged]
      rw [List.map_append] at hordered ⊢
      exact hordered.isGreatest_last

/-- Every value of one set is below every value of another exactly when the
greatest of the one is below the least of the other. -/
theorem forall_lt_iff {A B : Set ℤ} {m n : ℤ} (hA : IsGreatest A m) (hB : IsLeast B n) :
    (∀ x ∈ A, ∀ y ∈ B, x < y) ↔ m < n :=
  ⟨fun h => h m hA.1 n hB.1, fun h _ hx _ hy => (hA.2 hx).trans_lt (h.trans_le (hB.2 hy))⟩

theorem forall_le_iff {A B : Set ℤ} {m n : ℤ} (hA : IsGreatest A m) (hB : IsLeast B n) :
    (∀ x ∈ A, ∀ y ∈ B, x ≤ y) ↔ m ≤ n :=
  ⟨fun h => h m hA.1 n hB.1, fun h _ hx _ hy => (hA.2 hx).trans (h.trans (hB.2 hy))⟩

/-- A list of 16-bit ranges whose first range ends below the values of the other
constraint while its last one does not. -/
def Straddles (a b : VPConstraint) : Prop :=
  match a with
  | .simple _ => False
  | .merged es => mergedType es = .short ∧ ∃ first last low,
      es.head?.bind (Entry.getHighAt .short) = some first ∧
      es.getLast?.bind (Entry.getHighAt .short) = some last ∧
      b.getLowShort = some low ∧ first < low ∧ low ≤ last

/-- The answers of the four queries are right about every pair of values. -/
structure ComparesSoundly (a b : VPConstraint) : Prop where
  lessThan : a.mustBeLessThan b = some true → ∀ x ∈ a.values, ∀ y ∈ b.values, x < y
  lessThanOrEqual : a.mustBeLessThanOrEqual b = some true → ∀ x ∈ a.values, ∀ y ∈ b.values, x ≤ y
  equal : a.mustBeEqual b = true → ∀ x ∈ a.values, ∀ y ∈ b.values, x = y
  notEqual : a.mustBeNotEqual b = true → ∀ x ∈ a.values, ∀ y ∈ b.values, x ≠ y


theorem mustBeEqual_sound (h : a.mustBeEqual b = true) :
    ∀ x ∈ a.values, ∀ y ∈ b.values, x = y := by
  intro x hx y hy
  match a, b with
  | .simple (.const w v), .simple (.const w' v') =>
    have hv : w = w' ∧ v' = v := by simpa [mustBeEqual] using h
    have hx' : v ≤ x ∧ x ≤ v := hx
    have hy' : v' ≤ y ∧ y ≤ v' := hy
    omega

theorem simpleNotEqual_sound {s : VPSimple} (h : simpleNotEqual s c = true) :
    ∀ x ∈ s.values, ∀ y ∈ c.values, x ≠ y := by
  have hsimple : ∀ t : VPSimple, s.mustBeNotEqual t = true →
      ∀ x ∈ s.values, ∀ y ∈ t.values, x ≠ y := by
    intro t ht x hx y hy
    have hapart : s.width = t.width ∧ (s.getHigh < t.getLow ∨ s.getLow > t.getHigh) := by
      simpa [VPSimple.mustBeNotEqual] using ht
    rw [VPSimple.mem_values] at hx hy
    omega
  intro x hx y hy
  cases c with
  | simple t => exact hsimple t h x hx y hy
  | merged es =>
    obtain ⟨e, he, hy⟩ := hy
    have hall : ∀ e ∈ es, simpleNotEqualEntry s e = true := by
      have hboth : s.width = mergedType es ∧ es.all (simpleNotEqualEntry s) = true := by
        simpa [simpleNotEqual, VPSimple.mustBeNotEqualAll] using h
      exact List.all_eq_true.1 hboth.2
    have hentry := hall e he
    cases e with
    | simple t => exact hsimple t hentry x hx y hy
    | list l =>
      obtain ⟨i, hi, hy⟩ := hy
      obtain ⟨t, ht, rfl⟩ := List.mem_map.1 hi
      have hboth : s.width = listType l ∧ l.all s.mustBeNotEqual = true := by
        simpa [simpleNotEqualEntry, VPSimple.mustBeNotEqualAll] using hentry
      exact hsimple t (List.all_eq_true.1 hboth.2 t ht) x hx y hy

theorem mustBeNotEqual_sound (h : a.mustBeNotEqual b = true) :
    ∀ x ∈ a.values, ∀ y ∈ b.values, x ≠ y := by
  intro x hx y hy
  match a, b with
  | .simple s, b => exact simpleNotEqual_sound h x hx y hy
  | .merged es, .simple t =>
    have ht : simpleNotEqual t (.merged es) = true := h
    exact (simpleNotEqual_sound ht y hy x hx).symm
  | .merged es, .merged fs =>
    obtain ⟨e, he, hx⟩ := hx
    have hentry := List.all_eq_true.1 h e he
    cases e with
    | simple s => exact simpleNotEqual_sound hentry x hx y hy
    | list l =>
      obtain ⟨i, hi, hx⟩ := hx
      obtain ⟨s, hs, rfl⟩ := List.mem_map.1 hi
      exact simpleNotEqual_sound (List.all_eq_true.1 hentry s hs) x hx y hy

/-- Apart from lists of 16 bits, both order queries compare the greatest value of
the one constraint with the least value of the other. -/
theorem Valid.order_queries (ha : a.Valid w) (hb : b.Valid w)
    (hshort : w = .short → ∀ es, a ≠ .merged es) :
    ∃ m n, IsGreatest a.values m ∧ IsLeast b.values n ∧
      a.mustBeLessThan b = some (decide (m < n)) ∧
      a.mustBeLessThanOrEqual b = some (decide (m ≤ n)) := by
  obtain ⟨m, hm, hgreatest⟩ := ha.getHighAt_isGreatest hshort
  obtain ⟨n, hn, hleast⟩ := hb.getLowAt_isLeast
  refine ⟨m, n, hgreatest, hleast, ?_⟩
  cases ha with
  | @simple s hs hw =>
    have hsm : s.getHigh = m := by
      rw [← Option.some.inj hm]
      exact (if_pos hw).symm
    rw [mustBeLessThan, mustBeLessThanOrEqual, hw, hn, hsm]
    exact ⟨rfl, rfl⟩
  | @merged l hl =>
    rw [mustBeLessThan, mustBeLessThanOrEqual, mergedType_map hl]
    cases w with
    | short => exact absurd rfl (hshort rfl _)
    | int =>
      simp only [getHighInt, getLowInt, hm, hn]
      exact ⟨rfl, rfl⟩
    | long =>
      simp only [getHighLong, getLowLong, hm, hn]
      exact ⟨rfl, rfl⟩

/-- The 32-bit accessors see nothing of a 16-bit constraint. -/
theorem Valid.getLowInt_short (hb : b.Valid .short) : b.getLowInt = some Width.int.minSigned := by
  cases hb with
  | @simple s hs hw => exact congrArg some (if_neg (by rw [hw]; decide))
  | @merged l hl =>
    obtain ⟨s, l, rfl⟩ := List.exists_cons_of_length_pos (by have := hl.two_le; omega : 0 < l.length)
    exact congrArg some (if_neg (by rw [hl.width s (by simp)]; decide))

theorem ListOf.getHighInt_short {l : List VPSimple} (hl : ListOf .short l) :
    (merged (l.map .simple)).getHighInt = some Width.int.maxSigned := by
  obtain ⟨l, s, rfl⟩ := List.eq_nil_or_concat' l |>.resolve_left
    (by rintro rfl; exact absurd hl.two_le (by simp))
  have hlast : ((l ++ [s]).map Entry.simple).getLast? = some (.simple s) := by simp
  show ((l ++ [s]).map Entry.simple).getLast?.bind _ = _
  rw [hlast]
  exact congrArg some (if_neg (by rw [hl.width s (by simp)]; decide))

/-- Comparisons are sound exactly when the first constraint is no list of 16-bit
ranges that straddles the least value of the second one. -/
theorem comparesSoundly_iff (w : Width) (a b : VPConstraint) (ha : a.Valid w) (hb : b.Valid w) :
    ComparesSoundly a b ↔ ¬ Straddles a b := by
  by_cases hshort : w = .short → ∀ es, a ≠ .merged es
  · -- every accessor is right
    obtain ⟨m, n, hm, hn, hless, hle⟩ := ha.order_queries hb hshort
    refine iff_of_true ⟨fun h => ?_, fun h => ?_, mustBeEqual_sound, mustBeNotEqual_sound⟩ ?_
    · rw [hless] at h
      exact (forall_lt_iff hm hn).2 (by simpa using h)
    · rw [hle] at h
      exact (forall_le_iff hm hn).2 (by simpa using h)
    · cases ha with
      | simple hs hw => exact id
      | @merged l hl =>
        rintro ⟨htype, -⟩
        rw [mergedType_map hl] at htype
        exact hshort htype _ rfl
  · push Not at hshort
    obtain ⟨rfl, es, rfl⟩ := hshort
    obtain ⟨l, rfl, hl⟩ := ha.exists_list
    obtain ⟨n, hn, hleast⟩ := hb.getLowAt_isLeast
    obtain ⟨first, l', hfirst⟩ := List.exists_cons_of_length_pos
      (by have := hl.two_le; omega : 0 < l.length)
    obtain ⟨l'', last, hlast⟩ := List.eq_nil_or_concat' l |>.resolve_left
      (by rintro rfl; exact absurd hl.two_le (by simp))
    have hhead : (l.map Entry.simple).head?.bind (Entry.getHighAt .short) = some first.getHigh := by
      rw [hfirst]
      exact congrArg some (if_pos (hl.width first (by simp [hfirst])))
    have htail : (l.map Entry.simple).getLast?.bind (Entry.getHighAt .short) = some last.getHigh := by
      have hsimple : (l.map Entry.simple).getLast? = some (.simple last) := by simp [hlast]
      rw [hsimple]
      exact congrArg some (if_pos (hl.width last (by simp [hlast])))
    have hgreatest : IsGreatest (merged (l.map .simple)).values last.getHigh := by
      have hordered := hl.ordered
      rw [values_merged]
      rw [hlast, List.map_append] at hordered ⊢
      exact hordered.isGreatest_last
    have hless : (merged (l.map .simple)).mustBeLessThan b = some (decide (first.getHigh < n)) := by
      rw [mustBeLessThan, mergedType_map hl]
      show compareBounds _ ((l.map Entry.simple).head?.bind (Entry.getHighAt .short)) _ = _
      rw [hhead, getLowShort, hn]
      rfl
    have hle : (merged (l.map .simple)).mustBeLessThanOrEqual b = some false := by
      rw [mustBeLessThanOrEqual, mergedType_map hl]
      show compareBounds _ (merged (l.map .simple)).getHighInt b.getLowInt = _
      rw [hl.getHighInt_short, hb.getLowInt_short]
      rfl
    constructor
    · rintro hsound ⟨-, f, t, m, hf, ht, hm, hfm, hmt⟩
      rw [hhead, Option.some.injEq] at hf
      rw [htail, Option.some.injEq] at ht
      rw [getLowShort, hn, Option.some.injEq] at hm
      have hlt := (forall_lt_iff hgreatest hleast).1
        (hsound.lessThan (by rw [hless, hf, hm]; simpa using hfm))
      omega
    · intro hstraddle
      refine ⟨fun h => ?_, fun h => ?_, mustBeEqual_sound, mustBeNotEqual_sound⟩
      · have hlt : first.getHigh < n := by simpa [hless] using h
        refine (forall_lt_iff hgreatest hleast).2 ?_
        by_contra hge
        exact hstraddle ⟨mergedType_map hl, _, _, n, hhead, htail, hn, hlt, by omega⟩
      · rw [hle] at h
        cases h

/-- A 32-bit exclusion list and a constant above all of it but the last part. -/
theorem comparesSoundly_iff_exclusion :
    ComparesSoundly (.merged [.simple (.range .int (-2147483648) 4 .no),
      .simple (.range .int 6 2147483647 .no)]) (.simple (.const .int 5)) := by
  refine (comparesSoundly_iff .int _ _
    (.merged (l := [.range .int (-2147483648) 4 .no, .range .int 6 2147483647 .no]) (by decide))
    (.simple (by decide) rfl)).2 ?_
  rintro ⟨htype, -⟩
  cases htype

/-- The 16-bit list of all values but 5 is said to be below 5. -/
theorem short_exclusion_compares_unsoundly :
    createExclusion .short 5 = .done (some (.merged [.simple (.range .short (-32768) 4 .no),
        .simple (.range .short 6 32767 .no)])) ∧
      Valid .short (.merged [.simple (.range .short (-32768) 4 .no),
        .simple (.range .short 6 32767 .no)]) ∧
      (merged [.simple (.range .short (-32768) 4 .no),
        .simple (.range .short 6 32767 .no)]).mustBeLessThan (.simple (.const .short 5)) = some true ∧
      ¬ ComparesSoundly (.merged [.simple (.range .short (-32768) 4 .no),
        .simple (.range .short 6 32767 .no)]) (.simple (.const .short 5)) := by
  refine ⟨by decide, .merged (l := [.range .short (-32768) 4 .no, .range .short 6 32767 .no])
    (by decide), by decide, fun h => ?_⟩
  have hlt := h.lessThan (by decide) 6 ⟨.simple (.range .short 6 32767 .no), by simp, by decide,
    by decide⟩ 5 ⟨by decide, by decide⟩
  exact absurd hlt (by decide)

end VPConstraint

end OMR.Compiler
