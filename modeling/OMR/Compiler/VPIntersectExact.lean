import OMR.Compiler.VPIntersect

/-!
# Intersections of constraints of one width are exact

The loop keeps two cursors. `Cursor` says what is left of a list, `Remaining`
that the values common to both lists are those already in the result together
with those common to what is left. One iteration keeps this and brings the loop
closer to its end; the loop then ends with exactly the common values.
-/

namespace OMR.Compiler

open OMR.Lib

/-- What is left of a list: the current range from `low` to `high`, then the
elements after it. -/
def left (low high : ℤ) (rest : List VPSimple) : Set ℤ :=
  valuesOf (⟨low, high⟩ :: rest.map VPSimple.interval)

theorem mem_left {low high x : ℤ} {rest : List VPSimple} :
    x ∈ left low high rest ↔
      (low ≤ x ∧ x ≤ high) ∨ x ∈ valuesOf (rest.map VPSimple.interval) := by
  simp [left]

/-- A position in an ordered list of constraints of width `w`. -/
structure Cursor (w : Width) (cur : VPSimple) (low high : ℤ) (next : List Entry)
    (rest : List VPSimple) : Prop where
  next_eq : next = rest.map .simple
  valid : ∀ s ∈ cur :: rest, s.Valid
  width : ∀ s ∈ cur :: rest, s.width = w
  ordered : Ordered ((cur :: rest).map VPSimple.interval)
  high_eq : high = cur.getHigh
  low_le : low ≤ high
  min_le : w.minSigned ≤ low

namespace Cursor

variable {w : Width} {cur s : VPSimple} {low high x : ℤ} {next : List Entry}
  {rest : List VPSimple}

theorem le_max (h : Cursor w cur low high next rest) : high ≤ w.maxSigned := by
  have hcur := (h.valid cur (by simp)).le_max
  rwa [h.width cur (by simp), ← h.high_eq] at hcur

theorem high_lt (h : Cursor w cur low high next rest)
    (hx : x ∈ valuesOf (rest.map VPSimple.interval)) : high < x := by
  rw [h.high_eq]
  exact h.ordered.high_lt hx

theorem low_le_of_mem (h : Cursor w cur low high next rest) (hx : x ∈ left low high rest) :
    low ≤ x := by
  rcases mem_left.1 hx with hx | hx
  · exact hx.1
  · exact h.low_le.trans (h.high_lt hx).le

/-- All that is left lies in the type. -/
theorem le_max_of_mem (h : Cursor w cur low high next rest) (hx : x ∈ left low high rest) :
    x ≤ w.maxSigned := by
  rcases mem_left.1 hx with hx | ⟨i, hi, hx⟩
  · exact hx.2.trans h.le_max
  · obtain ⟨s, hs, rfl⟩ := List.mem_map.1 hi
    have hmax := (h.valid s (by simp [hs])).le_max
    rw [h.width s (by simp [hs])] at hmax
    exact hx.2.trans hmax

/-- The cursor at the first element of a list. -/
theorem first (hvalid : ∀ s ∈ cur :: rest, s.Valid) (hwidth : ∀ s ∈ cur :: rest, s.width = w)
    (hordered : Ordered ((cur :: rest).map VPSimple.interval)) :
    Cursor w cur cur.getLow cur.getHigh (rest.map .simple) rest := by
  have hcur := hvalid cur (by simp)
  refine ⟨rfl, hvalid, hwidth, hordered, rfl, hcur.low_le_high, ?_⟩
  rw [← hwidth cur (by simp)]
  exact hcur.min_le

/-- The cursor at the next element. -/
theorem step (h : Cursor w cur low high next (s :: rest)) :
    Cursor w s s.getLow s.getHigh (rest.map .simple) rest :=
  first (fun t ht => h.valid t (List.mem_cons_of_mem _ ht))
    (fun t ht => h.width t (List.mem_cons_of_mem _ ht)) h.ordered.tail

theorem asConstraint_step (h : Cursor w cur low high next (s :: rest)) :
    (Entry.simple s).asConstraint w = some s :=
  Entry.asConstraint_of_width (h.width s (by simp))

/-- The bounds read from the current element again. -/
theorem load (h : Cursor w cur low high next rest) :
    Cursor w cur cur.getLow cur.getHigh next rest := by
  rw [h.next_eq]
  exact first h.valid h.width h.ordered

/-- The current range with another lower bound of the type. -/
theorem trim (h : Cursor w cur low high next rest) {low' : ℤ} (hmin : w.minSigned ≤ low')
    (hle : low' ≤ high) : Cursor w cur low' high next rest :=
  ⟨h.next_eq, h.valid, h.width, h.ordered, h.high_eq, hle, hmin⟩

end Cursor

/-- A list of results: valid constraints of width `w` in increasing order. -/
structure Results (w : Width) (r : List VPSimple) : Prop where
  valid : ∀ s ∈ r, s.Valid
  width : ∀ s ∈ r, s.width = w
  ordered : Ordered (r.map VPSimple.interval)

/-- The values common to `A` and `B` are those of the result `r` and, above them,
those common to `left` and `otherLeft`. -/
structure Remaining (w : Width) (A B left otherLeft : Set ℤ) (r : List VPSimple) : Prop where
  results : Results w r
  above : ∀ s ∈ r, ∀ x ∈ left, x ∈ otherLeft → s.getHigh < x
  exact : ∀ x, x ∈ A ∧ x ∈ B ↔
    x ∈ valuesOf (r.map VPSimple.interval) ∨ (x ∈ left ∧ x ∈ otherLeft)

namespace Remaining

variable {w : Width} {A B L L' M M' : Set ℤ} {r : List VPSimple} {t : VPSimple}

/-- Values that are not common may be dropped or added on either side. -/
theorem congr (h : Remaining w A B L M r) (hLM : ∀ x, x ∈ L ∧ x ∈ M ↔ x ∈ L' ∧ x ∈ M') :
    Remaining w A B L' M' r := by
  refine ⟨h.results, fun s hs x hL hM => ?_, fun x => ?_⟩
  · obtain ⟨hL, hM⟩ := (hLM x).2 ⟨hL, hM⟩
    exact h.above s hs x hL hM
  · rw [h.exact x, hLM x]

/-- A new result that holds the lowest of the common values. -/
theorem extend (h : Remaining w A B L M r) (ht : t.Valid) (htw : t.width = w)
    (hmem : ∀ x, x ∈ t.values → x ∈ L ∧ x ∈ M)
    (hsplit : ∀ x, x ∈ L ∧ x ∈ M ↔ x ∈ t.values ∨ (x ∈ L' ∧ x ∈ M'))
    (habove : ∀ x, x ∈ L' → x ∈ M' → t.getHigh < x) :
    Remaining w A B L' M' (r ++ [t]) := by
  have hlow : t.getLow ∈ t.values := ⟨le_rfl, ht.low_le_high⟩
  have hlt : ∀ s ∈ r, s.getHigh < t.getLow := fun s hs =>
    h.above s hs _ (hmem _ hlow).1 (hmem _ hlow).2
  refine ⟨⟨?_, ?_, ?_⟩, ?_, fun x => ?_⟩
  · intro s hs
    rcases List.mem_append.1 hs with hs | hs
    · exact h.results.valid s hs
    · rw [List.mem_singleton.1 hs]
      exact ht
  · intro s hs
    rcases List.mem_append.1 hs with hs | hs
    · exact h.results.width s hs
    · rw [List.mem_singleton.1 hs]
      exact htw
  · rw [List.map_append]
    apply h.results.ordered.append_singleton ht.low_le_high
    intro j hj
    obtain ⟨s, hs, rfl⟩ := List.mem_map.1 hj
    exact hlt s hs
  · intro s hs x hL hM
    have htx := habove x hL hM
    rcases List.mem_append.1 hs with hs | hs
    · exact (hlt s hs).trans_le (ht.low_le_high.trans htx.le)
    · rw [List.mem_singleton.1 hs]
      exact htx
  · rw [h.exact x, hsplit x, List.map_append, mem_valuesOf_append, or_assoc]
    apply or_congr_right
    apply or_congr_left
    show x ∈ t.values ↔ x ∈ valuesOf [t.interval]
    simp [VPSimple.values]

end Remaining

/-- The loop at the top of an iteration. -/
structure WalkInv (k : WalkKind) (A B : Set ℤ) (s : Walk) (rest otherRest r : List VPSimple) :
    Prop where
  cur : Cursor k.curWidth s.cur s.curLow s.curHigh s.next rest
  other : Cursor k.otherWidth s.otherCur s.otherLow s.otherHigh s.otherNext otherRest
  getLow_le : s.cur.getLow ≤ s.curLow
  partly : ∀ t ∈ s.cur :: rest, ¬ (t.getLow = k.curWidth.minSigned ∧ t.getHigh = k.curWidth.maxSigned)
  result : s.result = r.map some
  remaining : Remaining k.curWidth A B (left s.curLow s.curHigh rest)
    (left s.otherLow s.otherHigh otherRest) r

/-- A bound for the number of iterations to come. An iteration that moves neither
cursor leaves the current range above the other one. -/
def Walk.measure (s : Walk) : ℕ :=
  2 * (s.next.length + s.otherNext.length) + if s.curLow ≤ s.otherHigh then 1 else 0

/-- What an iteration that starts with measure `m` may end with. -/
def Progress.Good (k : WalkKind) (A B : Set ℤ) (m : ℕ) : Progress → Prop
  | .again s => ∃ rest otherRest r, WalkInv k A B (s.atTop k) rest otherRest r ∧
      (s.atTop k).measure < m
  | .exit result => ∃ r, result = r.map some ∧ Remaining k.curWidth A B ∅ ∅ r
  | .nullDereference => False

namespace Cursor

variable {w : Width} {cur s : VPSimple} {low high x : ℤ} {next : List Entry}
  {rest : List VPSimple}

/-- Moving to the next element leaves what lies above the current range. -/
theorem mem_left_step (h : Cursor w cur low high next (s :: rest)) :
    x ∈ left s.getLow s.getHigh rest ↔ x ∈ left low high (s :: rest) ∧ high < x := by
  have hrest : x ∈ left s.getLow s.getHigh rest ↔
      x ∈ valuesOf ((s :: rest).map VPSimple.interval) := Iff.rfl
  rw [hrest, mem_left]
  constructor
  · exact fun hx => ⟨Or.inr hx, h.high_lt hx⟩
  · rintro ⟨hx | hx, hlt⟩
    · omega
    · exact hx

theorem le_high_of_nil (h : x ∈ left low high []) : x ≤ high := by
  rcases mem_left.1 h with h | h
  · exact h.2
  · exact absurd h (by simp)

end Cursor

/-- Lower bounds that are not above `x` do not decide about `x`. -/
theorem mem_left_iff {low low' high x : ℤ} {rest : List VPSimple} (h : low ≤ x) (h' : low' ≤ x) :
    x ∈ left low high rest ↔ x ∈ left low' high rest := by
  simp only [mem_left, h, h', true_and]

namespace WalkInv

variable {k : WalkKind} {A B : Set ℤ} {s : Walk} {rest otherRest r : List VPSimple}

/-- Reading the bounds again is harmless when it does not change what is
common. -/
theorem atTop (h : WalkInv k A B s rest otherRest r)
    (hload : k.reload = true → ∀ x,
      (x ∈ left s.curLow s.curHigh rest ∧ x ∈ left s.otherLow s.otherHigh otherRest) ↔
        (x ∈ left s.cur.getLow s.curHigh rest ∧
          x ∈ left s.otherCur.getLow s.otherHigh otherRest)) :
    WalkInv k A B (s.atTop k) rest otherRest r := by
  rw [Walk.atTop]
  split_ifs with hk
  · refine ⟨h.cur.load, h.other.load, le_rfl, h.partly, h.result, ?_⟩
    have hcommon := hload hk
    rw [h.cur.high_eq, h.other.high_eq] at hcommon
    have hrem := h.remaining
    rw [h.cur.high_eq, h.other.high_eq] at hrem
    exact hrem.congr hcommon
  · exact h

end WalkInv

theorem Walk.measure_le (s : Walk) : s.measure ≤ 2 * (s.next.length + s.otherNext.length) + 1 := by
  rw [Walk.measure]
  split_ifs <;> omega

@[simp] theorem Walk.atTop_next (k : WalkKind) (s : Walk) : (s.atTop k).next = s.next := by
  rw [Walk.atTop]
  split_ifs <;> rfl

@[simp] theorem Walk.atTop_otherNext (k : WalkKind) (s : Walk) :
    (s.atTop k).otherNext = s.otherNext := by
  rw [Walk.atTop]
  split_ifs <;> rfl

/-- An iteration that has moved a cursor is closer to the end. -/
theorem Progress.good_again {k : WalkKind} {A B : Set ℤ} {s s' : Walk}
    {rest otherRest r : List VPSimple} (h : WalkInv k A B (s'.atTop k) rest otherRest r)
    (hlen : s'.next.length + s'.otherNext.length < s.next.length + s.otherNext.length) :
    (Progress.again s').Good k A B s.measure := by
  refine ⟨rest, otherRest, r, h, ?_⟩
  have hle := (s'.atTop k).measure_le
  have hge : 2 * (s.next.length + s.otherNext.length) ≤ s.measure := Nat.le_add_right _ _
  rw [Walk.atTop_next, Walk.atTop_otherNext] at hle
  omega

section Body

variable {k : WalkKind} {A B : Set ℤ} {s : Walk} {rest otherRest r : List VPSimple}

/-- The current range lies below the other one: move to the next element. -/
theorem WalkInv.body_below (h : WalkInv k A B s rest otherRest r)
    (hload : k.reload = true → s.load = s) (hlt : s.curHigh < s.otherLow) :
    (s.body k).Good k A B s.measure := by
  have hbody : s.body k = s.advance k true false := if_pos hlt
  rw [hbody, Walk.advance, if_pos rfl, h.cur.next_eq]
  cases rest with
  | nil =>
    refine ⟨r, h.result, h.remaining.congr fun x => ⟨fun hx => ?_, fun hx => absurd hx.1 (by simp)⟩⟩
    have hle := Cursor.le_high_of_nil hx.1
    have hge := h.other.low_le_of_mem hx.2
    omega
  | cons t rest =>
    simp only [List.map_cons, h.cur.asConstraint_step, Walk.advanceOther, Bool.false_eq_true,
      if_false]
    apply Progress.good_again
    · refine WalkInv.atTop ⟨h.cur.step, h.other, le_rfl,
        fun u hu => h.partly u (List.mem_cons_of_mem _ hu), h.result, h.remaining.congr fun x => ?_⟩ ?_
      · rw [h.cur.mem_left_step]
        constructor
        · rintro ⟨hx, hox⟩
          have hge := h.other.low_le_of_mem hox
          exact ⟨⟨hx, by omega⟩, hox⟩
        · rintro ⟨⟨hx, -⟩, hox⟩
          exact ⟨hx, hox⟩
      · intro hk x
        have hlow : s.otherCur.getLow = s.otherLow := congrArg Walk.otherLow (hload hk)
        show _ ↔ x ∈ left t.getLow _ rest ∧ x ∈ left s.otherCur.getLow s.otherHigh otherRest
        rw [hlow]
    · have hlen : s.next.length = rest.length + 1 := by rw [h.cur.next_eq]; simp
      simp only [List.length_map]
      omega

/-- The other range lies below the current one: move to the next element of the
other list. -/
theorem WalkInv.body_above (h : WalkInv k A B s rest otherRest r)
    (hload : k.reload = true → s.load = s) (hcur : ¬ s.curHigh < s.otherLow)
    (hlt : s.otherHigh < s.curLow) :
    (s.body k).Good k A B s.measure := by
  have hbody : s.body k = s.advance k false true := by
    rw [Walk.body, if_neg hcur, if_pos hlt]
  rw [hbody, Walk.advance, if_neg (by simp), Walk.advanceOther, if_pos rfl, h.other.next_eq]
  cases otherRest with
  | nil =>
    refine ⟨r, h.result, h.remaining.congr fun x => ⟨fun hx => ?_, fun hx => absurd hx.1 (by simp)⟩⟩
    have hle := Cursor.le_high_of_nil hx.2
    have hge := h.cur.low_le_of_mem hx.1
    omega
  | cons t otherRest =>
    simp only [List.map_cons, h.other.asConstraint_step]
    apply Progress.good_again
    · refine WalkInv.atTop ⟨h.cur, h.other.step, h.getLow_le, h.partly, h.result,
        h.remaining.congr fun x => ?_⟩ ?_
      · rw [h.other.mem_left_step]
        constructor
        · rintro ⟨hx, hox⟩
          have hge := h.cur.low_le_of_mem hx
          exact ⟨hx, hox, by omega⟩
        · rintro ⟨hx, hox, -⟩
          exact ⟨hx, hox⟩
      · intro hk x
        have hlow : s.cur.getLow = s.curLow := congrArg Walk.curLow (hload hk)
        show _ ↔ x ∈ left s.cur.getLow s.curHigh rest ∧ x ∈ left t.getLow _ otherRest
        rw [hlow]
    · have hlen : s.otherNext.length = otherRest.length + 1 := by rw [h.other.next_eq]; simp
      simp only [List.length_map]
      omega

/-- The two current ranges meet up to `e`: their common part joins the result,
and only what lies above `e` is still to be looked at. -/
theorem WalkInv.meet (h : WalkInv k A B s rest otherRest r) {e : ℤ} {t : VPSimple}
    (ht : t.Valid) (htw : t.width = k.curWidth)
    (hti : t.interval = ⟨max s.curLow s.otherLow, e⟩) (he : e = min s.curHigh s.otherHigh)
    {L M : Set ℤ} (habove : ∀ x, x ∈ L → x ∈ M → e < x)
    (hkeep : ∀ x, e < x → ((x ∈ L ∧ x ∈ M) ↔
      (x ∈ left s.curLow s.curHigh rest ∧ x ∈ left s.otherLow s.otherHigh otherRest))) :
    Remaining k.curWidth A B L M (r ++ [t]) := by
  have hvals : ∀ x, x ∈ t.values ↔ max s.curLow s.otherLow ≤ x ∧ x ≤ e := by
    intro x
    rw [VPSimple.values, hti]
    exact Iff.rfl
  have hhigh : t.getHigh = e := congrArg Interval.high hti
  have hmem : ∀ x, x ∈ t.values →
      x ∈ left s.curLow s.curHigh rest ∧ x ∈ left s.otherLow s.otherHigh otherRest := by
    intro x hx
    rw [hvals] at hx
    exact ⟨mem_left.2 (Or.inl ⟨by omega, by omega⟩), mem_left.2 (Or.inl ⟨by omega, by omega⟩)⟩
  refine h.remaining.extend ht htw hmem (fun x => ⟨fun hx => ?_, ?_⟩) ?_
  · by_cases hxe : e < x
    · exact Or.inr ((hkeep x hxe).2 hx)
    · have hlow := h.cur.low_le_of_mem hx.1
      have hotherLow := h.other.low_le_of_mem hx.2
      exact Or.inl ((hvals x).2 ⟨by omega, by omega⟩)
  · rintro (hx | hx)
    · exact hmem x hx
    · exact (hkeep x (habove x hx.1 hx.2)).1 hx
  · rw [hhigh]
    exact habove

/-- What the loop knows when the ranges met up to `e` and the first list has been
dealt with: `s` is the state before the iteration, `u` the state now. -/
structure HalfMoved (k : WalkKind) (s u : Walk) (e : ℤ) (rest otherRest rest' : List VPSimple) :
    Prop where
  low_le : s.otherLow ≤ e
  le_high : e ≤ s.otherHigh
  lt_max : e < k.curWidth.maxSigned
  cur : Cursor k.curWidth u.cur u.curLow u.curHigh u.next rest'
  other : Cursor k.otherWidth s.otherCur s.otherLow s.otherHigh s.otherNext otherRest
  getLow_le : u.cur.getLow ≤ u.curLow
  otherCur_eq : u.otherCur = s.otherCur
  otherNext_eq : u.otherNext = s.otherNext
  otherHigh_eq : u.otherHigh = s.otherHigh
  otherLow_eq : u.otherLow = k.otherWidth.wrap (e + 1)
  above : ∀ x ∈ left u.curLow u.curHigh rest', e < x
  keep : ∀ x, e < x →
    (x ∈ left u.curLow u.curHigh rest' ↔ x ∈ left s.curLow s.curHigh rest)
  reread : k.reload = true → ∀ x, e < x →
    (x ∈ left u.curLow u.curHigh rest' ↔ x ∈ left u.cur.getLow u.curHigh rest')
  moved : (u.next.length < s.next.length ∧ u.curLow = u.cur.getLow) ∨
    (u.next = s.next ∧ e = s.otherHigh ∧ s.curLow ≤ s.otherHigh ∧ u.curLow = e + 1)

/-- The second list after the ranges met: the loop ends, moves on in the second
list, or goes on with a shorter range. -/
theorem WalkInv.good_advanceOther (h : WalkInv k A B s rest otherRest r) {u : Walk} {e : ℤ}
    {t : VPSimple} {rest' : List VPSimple} (hu : HalfMoved k s u e rest otherRest rest')
    (hwide : k.reload = true → k.curWidth.maxSigned ≤ k.otherWidth.maxSigned)
    (hload : k.reload = true → s.load = s)
    (hpartly : ∀ c ∈ u.cur :: rest',
      ¬ (c.getLow = k.curWidth.minSigned ∧ c.getHigh = k.curWidth.maxSigned))
    (hresult : u.result = (r ++ [t]).map some)
    (hmeet : ∀ {L M : Set ℤ}, (∀ x, x ∈ L → x ∈ M → e < x) →
      (∀ x, e < x → ((x ∈ L ∧ x ∈ M) ↔ (x ∈ left s.curLow s.curHigh rest ∧
        x ∈ left s.otherLow s.otherHigh otherRest))) → Remaining k.curWidth A B L M (r ++ [t])) :
    (Walk.advanceOther k u (decide (u.otherLow > s.otherHigh))).Good k A B s.measure := by
  have hmin := hu.other.min_le
  have hmax := hu.other.le_max
  have hlow := hu.low_le
  have hle := hu.le_high
  -- the lower bound wraps around only at the maximum of the other type
  have hwrap : (e < k.otherWidth.maxSigned ∧ u.otherLow = e + 1) ∨
      (e = k.otherWidth.maxSigned ∧ u.otherLow = k.otherWidth.minSigned) := by
    rw [hu.otherLow_eq]
    rcases lt_or_eq_of_le (hle.trans hmax) with hlt | heq
    · exact Or.inl ⟨hlt, Width.wrap_of_mem (by omega) (by omega)⟩
    · exact Or.inr ⟨heq, by rw [heq]; exact k.otherWidth.wrap_succ_maxSigned⟩
  have hminmax := k.otherWidth.minSigned_lt_maxSigned
  rw [Walk.advanceOther]
  split_ifs with hskip
  · have hskip : u.otherLow > s.otherHigh := by simpa using hskip
    have heq : e = s.otherHigh := by omega
    rw [hu.otherNext_eq, hu.other.next_eq]
    cases otherRest with
    | nil =>
      refine ⟨r ++ [t], hresult, hmeet (by simp) fun x hx => ⟨by simp, fun hx' => ?_⟩⟩
      have := Cursor.le_high_of_nil hx'.2
      omega
    | cons o otherRest =>
      simp only [List.map_cons, hu.other.asConstraint_step]
      have hstep : ∀ x, x ∈ left o.getLow o.getHigh otherRest ↔
          x ∈ left s.otherLow s.otherHigh (o :: otherRest) ∧ e < x := by
        intro x
        rw [hu.other.mem_left_step, heq]
      apply Progress.good_again
      · refine WalkInv.atTop ⟨hu.cur, hu.other.step, hu.getLow_le, hpartly, hresult, ?_⟩ ?_
        · refine hmeet (fun x hx _ => hu.above x hx) fun x hx => ?_
          rw [hu.keep x hx]
          exact and_congr_right' ((hstep x).trans (and_iff_left hx))
        · intro hk x
          show _ ↔ x ∈ left u.cur.getLow u.curHigh rest' ∧ x ∈ left o.getLow o.getHigh otherRest
          constructor
          · rintro ⟨hx, hox⟩
            exact ⟨(hu.reread hk x (hu.above x hx)).1 hx, hox⟩
          · rintro ⟨hx, hox⟩
            exact ⟨(hu.reread hk x ((hstep x).1 hox).2).2 hx, hox⟩
      · have hlen : s.otherNext.length = otherRest.length + 1 := by rw [hu.other.next_eq]; simp
        have hnext : u.next.length ≤ s.next.length := by
          rcases hu.moved with ⟨hlt, -⟩ | ⟨heq, -⟩
          · exact hlt.le
          · rw [heq]
        simp only [List.length_map]
        omega
  · have hstay : u.otherLow ≤ s.otherHigh := by simpa using hskip
    have hcursor : Cursor k.otherWidth u.otherCur u.otherLow u.otherHigh u.otherNext otherRest := by
      rw [hu.otherCur_eq, hu.otherHigh_eq, hu.otherNext_eq]
      exact hu.other.trim (by omega) hstay
    have hkeep : ∀ x, e < x → (x ∈ left u.otherLow u.otherHigh otherRest ↔
        x ∈ left s.otherLow s.otherHigh otherRest) := by
      intro x hx
      rw [hu.otherHigh_eq]
      exact mem_left_iff (by omega) (by omega)
    have hrem : Remaining k.curWidth A B (left u.curLow u.curHigh rest')
        (left u.otherLow u.otherHigh otherRest) (r ++ [t]) := by
      refine hmeet (fun x hx _ => hu.above x hx) fun x hx => ?_
      rw [hu.keep x hx, hkeep x hx]
    have hinv : WalkInv k A B (u.atTop k) rest' otherRest (r ++ [t]) := by
      refine WalkInv.atTop ⟨hu.cur, hcursor, hu.getLow_le, hpartly, hresult, hrem⟩ fun hk x => ?_
      -- without a wrap the second range is not used up, so the first one was
      have hlt : e < s.otherHigh := by
        have := hwide hk
        have := hu.lt_max
        omega
      have hcur : u.curLow = u.cur.getLow := by
        rcases hu.moved with ⟨-, hcur⟩ | ⟨-, heq, -⟩
        · exact hcur
        · omega
      have hother : u.otherCur.getLow = s.otherLow := by
        rw [hu.otherCur_eq]
        exact congrArg Walk.otherLow (hload hk)
      rw [← hcur, hother]
      refine and_congr_right fun hx => mem_left_iff ?_ ?_
      · have := hu.above x hx
        have := hwide hk
        have := hu.lt_max
        omega
      · have := hu.above x hx
        omega
    rcases hu.moved with ⟨hlt, -⟩ | ⟨hnext, heq, hcurLow, hcur⟩
    · apply Progress.good_again hinv
      rw [hu.otherNext_eq]
      omega
    · refine ⟨rest', otherRest, r ++ [t], hinv, ?_⟩
      -- neither list has moved, but now the first range lies above the second
      have hk : k.reload = false := by
        by_contra hk
        have := hwide (by simpa using hk)
        have := hu.lt_max
        omega
      have htop : u.atTop k = u := by rw [Walk.atTop, if_neg (by simp [hk])]
      rw [htop, Walk.measure, Walk.measure, hnext, hu.otherNext_eq, hu.otherHigh_eq,
        if_pos hcurLow, if_neg (by omega)]
      omega

/-- The two current ranges meet. -/
theorem WalkInv.body_meet (h : WalkInv k A B s rest otherRest r)
    (hwide : k.reload = true → k.curWidth.maxSigned ≤ k.otherWidth.maxSigned)
    (hload : k.reload = true → s.load = s) (hcur : ¬ s.curHigh < s.otherLow)
    (hother : ¬ s.otherHigh < s.curLow) :
    (s.body k).Good k A B s.measure := by
  have hlowc := h.cur.low_le
  have hlowo := h.other.low_le
  have hmin := h.cur.min_le
  have hmax := h.cur.le_max
  have hl : (if s.curLow > s.otherLow then s.curLow else s.otherLow) = max s.curLow s.otherLow := by
    rw [max_def]
    split_ifs <;> omega
  have he : (if s.curHigh < s.otherHigh then s.curHigh else s.otherHigh) =
      min s.curHigh s.otherHigh := by
    rw [min_def]
    split_ifs <;> omega
  rw [Walk.body, if_neg hcur, if_neg hother]
  simp only [hl, he]
  generalize hedef : min s.curHigh s.otherHigh = e
  have hwl : k.curWidth.wrap (max s.curLow s.otherLow) = max s.curLow s.otherLow :=
    Width.wrap_of_mem (by omega) (by omega)
  have hwe : k.curWidth.wrap e = e := Width.wrap_of_mem (by omega) (by omega)
  obtain ⟨t, hcreate, ht, htw, hti⟩ : ∃ t, rangeCreate k.curWidth (max s.curLow s.otherLow) e =
      some t ∧ t.Valid ∧ t.width = k.curWidth ∧ t.interval = ⟨max s.curLow s.otherLow, e⟩ := by
    apply exists_rangeCreate (by omega) (by omega) (by omega)
    rintro ⟨hfull, hfull'⟩
    -- a common part with both extreme bounds would be a full range of the list
    have hcurMin := (h.cur.valid s.cur (by simp)).min_le
    have hcurHigh := h.cur.high_eq
    have hcurLow := h.getLow_le
    rw [h.cur.width s.cur (by simp)] at hcurMin
    exact h.partly s.cur (by simp) ⟨by omega, by omega⟩
  have hmeet := fun {L M : Set ℤ} => h.meet (L := L) (M := M) ht htw hti hedef.symm
  rw [hwl, hwe, hcreate]
  split_ifs with hemax
  · refine ⟨r ++ [t], by simp [h.result], hmeet (by simp) fun x hx => ⟨by simp, fun hx' => ?_⟩⟩
    have := h.cur.le_max_of_mem hx'.1
    omega
  · have hwe' : k.curWidth.wrap (e + 1) = e + 1 := Width.wrap_of_mem (by omega) (by omega)
    rw [hwe', Walk.advance]
    split_ifs with hskip
    · have hskip : e + 1 > s.curHigh := by simpa using hskip
      simp only [h.cur.next_eq]
      cases rest with
      | nil =>
        refine ⟨r ++ [t], by simp [h.result], hmeet (by simp) fun x hx => ⟨by simp, fun hx' => ?_⟩⟩
        have := Cursor.le_high_of_nil hx'.1
        omega
      | cons c rest =>
        simp only [List.map_cons, h.cur.asConstraint_step]
        have hstep : ∀ x, x ∈ left c.getLow c.getHigh rest ↔
            x ∈ left s.curLow s.curHigh (c :: rest) ∧ e < x := by
          intro x
          rw [h.cur.mem_left_step, (by omega : e = s.curHigh)]
        refine h.good_advanceOther (e := e) (t := t) ?_ hwide hload
          (fun u hu => h.partly u (List.mem_cons_of_mem _ hu)) (by simp [h.result]) hmeet
        exact
          { low_le := by omega
            le_high := by omega
            lt_max := by omega
            cur := h.cur.step
            other := h.other
            getLow_le := le_rfl
            otherCur_eq := rfl
            otherNext_eq := rfl
            otherHigh_eq := rfl
            otherLow_eq := rfl
            above := fun x hx => ((hstep x).1 hx).2
            keep := fun x hx => (hstep x).trans (and_iff_left hx)
            reread := fun _ _ _ => Iff.rfl
            moved := Or.inl ⟨by rw [h.cur.next_eq]; simp, rfl⟩ }
    · have hstay : e + 1 ≤ s.curHigh := by simpa using hskip
      refine h.good_advanceOther (e := e) (t := t) ?_ hwide hload h.partly
        (by simp [h.result]) hmeet
      have hge := h.getLow_le
      have hmin' : k.curWidth.minSigned ≤ e + 1 := by omega
      exact
        { low_le := by omega
          le_high := by omega
          lt_max := by omega
          cur := h.cur.trim hmin' hstay
          other := h.other
          getLow_le := by
            show s.cur.getLow ≤ e + 1
            omega
          otherCur_eq := rfl
          otherNext_eq := rfl
          otherHigh_eq := rfl
          otherLow_eq := rfl
          above := fun x hx => by
            rcases mem_left.1 hx with hx | hx
            · exact Int.lt_of_add_one_le hx.1
            · exact (Int.lt_of_add_one_le hstay).trans (h.cur.high_lt hx)
          keep := fun x hx => mem_left_iff (Int.add_one_le_of_lt hx) (by omega)
          reread := fun _ x hx => mem_left_iff (Int.add_one_le_of_lt hx) (by
            show s.cur.getLow ≤ x
            omega)
          moved := Or.inr ⟨rfl, by omega, by omega, rfl⟩ }

/-- One iteration of the loop. -/
theorem WalkInv.body_good (h : WalkInv k A B s rest otherRest r)
    (hwide : k.reload = true → k.curWidth.maxSigned ≤ k.otherWidth.maxSigned)
    (hload : k.reload = true → s.load = s) :
    (s.body k).Good k A B s.measure := by
  by_cases hcur : s.curHigh < s.otherLow
  · exact h.body_below hload hcur
  · by_cases hother : s.otherHigh < s.curLow
    · exact h.body_above hload hcur hother
    · exact h.body_meet hwide hload hcur hother

end Body

/-- The loop ends within the iterations that the measure allows, with the common
values in order. -/
theorem Walk.run_exact {k : WalkKind} {A B : Set ℤ}
    (hwide : k.reload = true → k.curWidth.maxSigned ≤ k.otherWidth.maxSigned) (n : ℕ) :
    ∀ {s : Walk} {rest otherRest r : List VPSimple},
      WalkInv k A B (s.atTop k) rest otherRest r → (s.atTop k).measure < n →
      ∃ r', (∀ fuel, n ≤ fuel → Walk.run k fuel s = .done (r'.map some)) ∧
        Remaining k.curWidth A B ∅ ∅ r' := by
  induction n with
  | zero => exact fun _ hm => absurd hm (by omega)
  | succ n ih =>
    intro s rest otherRest r h hm
    have hload : k.reload = true → (s.atTop k).load = s.atTop k := by
      intro hk
      rw [Walk.atTop, if_pos hk]
      rfl
    have hgood := h.body_good hwide hload
    cases hb : (s.atTop k).body k with
    | again u =>
      rw [hb] at hgood
      obtain ⟨rest', otherRest', r', hu, hlt⟩ := hgood
      obtain ⟨r'', hrun, hrem⟩ := ih hu (by omega)
      refine ⟨r'', fun fuel hfuel => ?_, hrem⟩
      obtain ⟨fuel, rfl⟩ := Nat.exists_eq_add_of_lt hfuel
      rw [Walk.run, hb]
      exact hrun _ (by omega)
    | exit result =>
      rw [hb] at hgood
      obtain ⟨r', rfl, hr'⟩ := hgood
      refine ⟨r', fun fuel hfuel => ?_, hr'⟩
      obtain ⟨fuel, rfl⟩ := Nat.exists_eq_add_of_lt hfuel
      rw [Walk.run, hb]
    | nullDereference =>
      rw [hb] at hgood
      exact hgood.elim

namespace VPConstraint

/-- What the result of an intersection is to be: `NULL` for no common value,
otherwise a constraint for exactly the common values. -/
structure IsIntersection (w : Width) (A B : Set ℤ) (r : Option VPConstraint) : Prop where
  null_iff : r = none ↔ A ∩ B = ∅
  valid : ∀ c, r = some c → c.Valid w
  values_eq : ∀ c, r = some c → c.values = A ∩ B

theorem IsIntersection.symm {w : Width} {A B : Set ℤ} {r : Option VPConstraint}
    (h : IsIntersection w A B r) : IsIntersection w B A r := by
  obtain ⟨hnull, hvalid, hvals⟩ := h
  rw [Set.inter_comm] at hnull hvals
  exact ⟨hnull, hvalid, hvals⟩

theorem Valid.values_nonempty {w : Width} {c : VPConstraint} (h : c.Valid w) : c.values.Nonempty := by
  cases h with
  | @simple s hs hw => exact ⟨s.getLow, le_rfl, hs.low_le_high⟩
  | @merged l hl =>
    obtain ⟨s, l', rfl⟩ := List.exists_cons_of_length_pos (by have := hl.two_le; omega : 0 < l.length)
    rw [values_merged]
    exact ⟨s.getLow, s.interval, by simp, le_rfl, (hl.valid s (by simp)).low_le_high⟩

/-- A constraint for the common values is one that is not `NULL` for a reason. -/
theorem isIntersection_some {w : Width} {A B : Set ℤ} {c : VPConstraint} (hc : c.Valid w)
    (hvals : c.values = A ∩ B) : IsIntersection w A B (some c) := by
  refine ⟨⟨by simp, fun hempty => ?_⟩, ?_, ?_⟩
  · have := hc.values_nonempty
    rw [hvals, hempty] at this
    exact absurd this Set.not_nonempty_empty
  · rintro _ ⟨⟩
    exact hc
  · rintro _ ⟨⟩
    exact hvals

theorem isIntersection_none {w : Width} {A B : Set ℤ} (h : ∀ x, x ∈ A → x ∉ B) :
    IsIntersection w A B none := by
  refine ⟨⟨fun _ => ?_, fun _ => rfl⟩, by simp, by simp⟩
  exact Set.eq_empty_of_forall_notMem fun x hx => h x hx.1 hx.2

/-- No element of a list of two or more covers its type. -/
theorem ListOf.partly {w : Width} {l : List VPSimple} (h : ListOf w l) {s : VPSimple} (hs : s ∈ l) :
    ¬ (s.getLow = w.minSigned ∧ s.getHigh = w.maxSigned) := by
  rintro ⟨hlow, hhigh⟩
  obtain ⟨before, after, rfl⟩ := List.append_of_mem hs
  have hlen := h.two_le
  have hapart := h.ordered.apart
  simp only [List.map_append, List.map_cons, List.pairwise_append, List.pairwise_cons] at hapart
  cases before with
  | cons t before =>
    have ht := h.valid t (by simp)
    have hmin := ht.min_le
    have hle := ht.low_le_high
    have hlt : t.getHigh < s.getLow := hapart.2.2 t.interval (by simp) s.interval (by simp)
    rw [h.width t (by simp)] at hmin
    omega
  | nil =>
    cases after with
    | nil => simp at hlen
    | cons t after =>
      have ht := h.valid t (by simp)
      have hmax := ht.le_max
      have hle := ht.low_le_high
      have hlt : s.getHigh < t.getLow := hapart.2.1.1 t.interval (by simp)
      rw [h.width t (by simp)] at hmax
      omega

end VPConstraint

open VPConstraint

/-- The end of a list intersection turns the results into a constraint. -/
theorem VPMergedConstraints.finish_isIntersection {w : Width} {A B : Set ℤ} {r : List VPSimple}
    (h : Remaining w A B ∅ ∅ r) :
    ∃ c, VPMergedConstraints.finish (r.map some) = .done c ∧ IsIntersection w A B c := by
  have hexact : valuesOf (r.map VPSimple.interval) = A ∩ B := by
    ext x
    rw [Set.mem_inter_iff, h.exact x]
    simp
  match r, h with
  | [], h =>
    refine ⟨none, rfl, isIntersection_none fun x hA hB => ?_⟩
    have := (h.exact x).1 ⟨hA, hB⟩
    simp at this
  | [t], h =>
    refine ⟨some (.simple t), rfl, isIntersection_some ?_ ?_⟩
    · exact .simple (h.results.valid t (by simp)) (h.results.width t (by simp))
    · rw [← hexact]
      ext x
      simp [values, VPSimple.values]
  | t :: t' :: r, h =>
    refine ⟨some (.merged ((t :: t' :: r).map .simple)), ?_, isIntersection_some ?_ ?_⟩
    · have hmap : ((t :: t' :: r).map some).map (Option.map Entry.simple) =
          ((t :: t' :: r).map Entry.simple).map some := by simp
      show collapse (((t :: t' :: r).map some).map (Option.map Entry.simple)) = _
      rw [hmap]
      show (VPMergedConstraints.create (((t :: t' :: r).map Entry.simple).map some)).bind _ = _
      simp only [VPMergedConstraints.create, nonNull_map_some, Outcome.bind_done]
    · exact .merged ⟨by simp, h.results.valid, h.results.width, h.results.ordered⟩
    · rw [values_merged, hexact]

/-- A list intersection of any kind, with as many iterations as there are list
elements to move past. -/
theorem VPMergedConstraints.walkFrom_isIntersection {k : WalkKind}
    (hwide : k.reload = true → k.curWidth.maxSigned ≤ k.otherWidth.maxSigned)
    {l otherRest : List VPSimple} {o : VPSimple} (hl : ListOf k.curWidth l)
    (hvalid : ∀ s ∈ o :: otherRest, s.Valid) (hwidth : ∀ s ∈ o :: otherRest, s.width = k.otherWidth)
    (hordered : Ordered ((o :: otherRest).map VPSimple.interval)) :
    ∃ c, (∀ fuel, 2 * (l.length + otherRest.length) ≤ fuel →
        walkFrom k fuel (l.map .simple) o (otherRest.map .simple) = .done c) ∧
      IsIntersection k.curWidth (valuesOf (l.map VPSimple.interval))
        (valuesOf ((o :: otherRest).map VPSimple.interval)) c := by
  obtain ⟨s, rest, rfl⟩ := List.exists_cons_of_length_pos (by have := hl.two_le; omega : 0 < l.length)
  have htop : (Walk.start s (rest.map .simple) o (otherRest.map .simple)).atTop k =
      Walk.start s (rest.map .simple) o (otherRest.map .simple) := by
    rw [Walk.atTop]
    split_ifs <;> rfl
  have hstart : WalkInv k (valuesOf ((s :: rest).map VPSimple.interval))
      (valuesOf ((o :: otherRest).map VPSimple.interval))
      ((Walk.start s (rest.map .simple) o (otherRest.map .simple)).atTop k) rest otherRest [] := by
    rw [htop]
    refine ⟨Cursor.first hl.valid hl.width hl.ordered, Cursor.first hvalid hwidth hordered, le_rfl,
      fun t ht => hl.partly ht, rfl, ⟨⟨by simp, by simp, Ordered.nil⟩, by simp, fun x => ?_⟩⟩
    simp only [List.map_nil, mem_valuesOf_nil, false_or]
    exact Iff.rfl
  have hmeasure : ((Walk.start s (rest.map .simple) o (otherRest.map .simple)).atTop k).measure <
      2 * ((s :: rest).length + otherRest.length) := by
    have hle := Walk.measure_le (Walk.start s (rest.map .simple) o (otherRest.map .simple))
    have hlen : (rest.map Entry.simple).length + (otherRest.map Entry.simple).length =
        rest.length + otherRest.length := by simp
    rw [htop, List.length_cons]
    simp only [Walk.start] at hle ⊢
    omega
  obtain ⟨r, hrun, hrem⟩ := Walk.run_exact hwide _ hstart hmeasure
  obtain ⟨c, hfinish, hc⟩ := finish_isIntersection hrem
  refine ⟨c, fun fuel hfuel => ?_, hc⟩
  have hs : (Entry.simple s).asConstraint k.curWidth = some s :=
    Entry.asConstraint_of_width (hl.width s (by simp))
  rw [List.map_cons, walkFrom]
  simp only [hs]
  rw [hrun fuel hfuel, Outcome.bind_done, hfinish]

/-- Two constants or ranges of one width. -/
theorem VPSimple.intersectSame_isIntersection {w : Width} {s t : VPSimple} (hs : s.Valid)
    (ht : t.Valid) (hsw : s.width = w) (htw : t.width = w) :
    IsIntersection w s.values t.values ((s.intersectSame t).map .simple) := by
  -- the operand with the smaller lower bound first
  have hordered : ∀ {a b : VPSimple}, a.Valid → b.Valid → a.width = w → b.width = w →
      a.getLow ≤ b.getLow → IsIntersection w a.values b.values ((a.intersectOrdered b).map .simple) := by
    intro a b ha hb haw hbw hle
    have hblow := hb.low_le_high
    have hmin := hb.min_le
    have hmax := hb.le_max
    rw [hbw] at hmin hmax
    rw [intersectOrdered]
    split_ifs with hin hmeet
    · refine isIntersection_some (.simple hb hbw) ?_
      ext x
      simp only [VPConstraint.values, Set.mem_inter_iff, VPSimple.mem_values]
      omega
    · obtain ⟨c, hcreate, hc, hcw, hci⟩ := exists_rangeCreate hmin hmeet (by omega : a.getHigh ≤ _)
        (by omega)
      rw [haw, hcreate]
      refine isIntersection_some (.simple hc hcw) ?_
      ext x
      have hlow : c.getLow = b.getLow := congrArg Interval.low hci
      have hhigh : c.getHigh = a.getHigh := congrArg Interval.high hci
      simp only [VPConstraint.values, Set.mem_inter_iff, VPSimple.mem_values, hlow, hhigh]
      omega
    · refine isIntersection_none fun x hx hx' => ?_
      rw [VPSimple.mem_values] at hx hx'
      omega
  rw [intersectSame]
  split_ifs with hlt
  · exact (hordered ht hs htw hsw hlt.le).symm
  · exact hordered hs ht hsw htw (not_lt.1 hlt)

namespace VPConstraint

/-- The number of constants and ranges of a constraint. -/
def length : VPConstraint → ℕ
  | simple _ => 1
  | merged es => es.length

/-- The list intersection of a width, called for operands of that width. -/
theorem merged_intersect1_eq {w : Width} {l otherRest : List VPSimple} {o : VPSimple} (fuel : ℕ)
    (hl : ListOf w l) (ho : o.width = w) :
    (match mergedType (l.map .simple) with
      | .short => VPMergedConstraints.shortIntersect fuel (l.map .simple) (.simple o)
          (otherRest.map .simple)
      | .int => VPMergedConstraints.intIntersect fuel (l.map .simple) (.simple o)
          (otherRest.map .simple)
      | .long => VPMergedConstraints.longIntersect fuel (l.map .simple) (.simple o)
          (otherRest.map .simple)) =
      VPMergedConstraints.walkFrom ⟨w, w, false⟩ fuel (l.map .simple) o (otherRest.map .simple) := by
  have hcast := Entry.asConstraint_of_width ho
  rw [mergedType_map hl]
  cases w with
  | short => simp only [VPMergedConstraints.shortIntersect, hcast]
  | int => simp only [VPMergedConstraints.intIntersect, hcast]
  | long => simp only [VPMergedConstraints.longIntersect, hcast]

/-- A list and a constraint of the same width. -/
theorem merged_intersect1_isIntersection {w : Width} {l : List VPSimple} {b : VPConstraint}
    (hl : ListOf w l) (hb : b.Valid w) :
    ∃ r, (∀ fuel, 2 * (l.length + b.length) ≤ fuel →
        VPMergedConstraints.intersect1 fuel (l.map .simple) b = .done r) ∧
      IsIntersection w (merged (l.map .simple)).values b.values r := by
  have hwide : (⟨w, w, false⟩ : WalkKind).reload = true → w.maxSigned ≤ w.maxSigned :=
    fun _ => le_rfl
  rw [values_merged]
  cases hb with
  | @simple s hs hw =>
    obtain ⟨r, hrun, hr⟩ := @VPMergedConstraints.walkFrom_isIntersection _ hwide l [] s hl
      (by simpa using hs) (by simpa using hw) (Ordered.singleton hs.low_le_high)
    refine ⟨r, fun fuel hfuel => ?_, ?_⟩
    · exact (@merged_intersect1_eq w l [] s fuel hl hw).trans
        (hrun fuel (Nat.le_trans (Nat.mul_le_mul_left 2 (Nat.add_le_add_left (by simp) _)) hfuel))
    · have hvals : valuesOf ([s].map VPSimple.interval) = (VPConstraint.simple s).values := by
        ext x
        simp [values, VPSimple.values]
      rwa [hvals] at hr
  | @merged m hm =>
    obtain ⟨o, m, rfl⟩ := List.exists_cons_of_length_pos (by have := hm.two_le; omega : 0 < m.length)
    obtain ⟨r, hrun, hr⟩ := VPMergedConstraints.walkFrom_isIntersection hwide hl hm.valid hm.width
      hm.ordered
    refine ⟨r, fun fuel hfuel => ?_, ?_⟩
    · refine (merged_intersect1_eq fuel hl (hm.width o (by simp))).trans (hrun fuel ?_)
      simp only [length, List.length_map, List.length_cons] at hfuel
      omega
    · rwa [values_merged]

/-- Intersecting two constraints of one width ends, and gives exactly the common
values: `NULL` when there are none, otherwise a constant, a range or an ordered
list of disjoint ones. -/
theorem intersect_same_width_exact (w : Width) (a b : VPConstraint) (ha : a.Valid w)
    (hb : b.Valid w) :
    ∃ r, (∀ fuel, 2 * (a.length + b.length) ≤ fuel → a.intersect fuel b = .done r) ∧
      (r = none ↔ a.values ∩ b.values = ∅) ∧
      ∀ c, r = some c → c.Valid w ∧ c.values = a.values ∩ b.values := by
  suffices h : ∃ r, (∀ fuel, 2 * (a.length + b.length) ≤ fuel → a.intersect fuel b = .done r) ∧
      IsIntersection w a.values b.values r by
    obtain ⟨r, hrun, hr⟩ := h
    exact ⟨r, hrun, hr.null_iff, fun c hc => ⟨hr.valid c hc, hr.values_eq c hc⟩⟩
  by_cases heq : a = b
  · refine ⟨some a, fun fuel _ => if_pos heq, isIntersection_some ha ?_⟩
    rw [heq, Set.inter_self]
  · cases ha with
    | @simple s hs hsw =>
      cases hb with
      | @simple t ht htw =>
        refine ⟨_, fun fuel _ => ?_, VPSimple.intersectSame_isIntersection hs ht hsw htw⟩
        have hprio : ¬ (simple t).priority > (simple s).priority := by
          simp only [priority, hsw, htw, gt_iff_lt, lt_irrefl, not_false_iff]
        have hsame : s.intersect1 t = s.intersectSame t := by
          rw [VPSimple.intersect1, hsw, htw]
          cases w <;> rfl
        rw [intersect, if_neg heq, if_neg hprio, intersect1, hsame]
      | @merged m hm =>
        obtain ⟨r, hrun, hr⟩ := merged_intersect1_isIntersection hm (.simple hs hsw)
        refine ⟨r, fun fuel hfuel => ?_, hr.symm⟩
        have hprio : (merged (m.map .simple)).priority > (simple s).priority := by
          simp only [priority]
          cases s.width <;> decide
        rw [intersect, if_neg heq, if_pos hprio]
        refine hrun fuel ?_
        simp only [length, List.length_map] at hfuel ⊢
        omega
    | @merged l hl =>
      obtain ⟨r, hrun, hr⟩ := merged_intersect1_isIntersection hl hb
      refine ⟨r, fun fuel hfuel => ?_, hr⟩
      have hprio : ¬ b.priority > (merged (l.map .simple)).priority := by
        cases b with
        | simple t =>
          simp only [priority]
          cases t.width <;> decide
        | merged _ => simp [priority]
      rw [intersect, if_neg heq, if_neg hprio]
      refine hrun fuel ?_
      simp only [length, List.length_map] at hfuel ⊢
      omega

/-- Two lists of 16-bit ranges, one of them reaching the maximum of the type. -/
theorem intersect_same_width_exact_lists :
    ∃ r, (∀ fuel, 8 ≤ fuel → (merged [.simple (.range .short (-5) 3 .no),
        .simple (.range .short 10 32767 .no)]).intersect fuel (merged [.simple (.const .short 2),
        .simple (.range .short 20 32767 .no)]) = .done r) ∧
      r = some (.merged [.simple (.const .short 2), .simple (.range .short 20 32767 .no)]) := by
  obtain ⟨r, hrun, -, -⟩ := intersect_same_width_exact .short
    (merged [.simple (.range .short (-5) 3 .no), .simple (.range .short 10 32767 .no)])
    (merged [.simple (.const .short 2), .simple (.range .short 20 32767 .no)])
    (.merged (l := [.range .short (-5) 3 .no, .range .short 10 32767 .no]) (by decide))
    (.merged (l := [.const .short 2, .range .short 20 32767 .no]) (by decide))
  refine ⟨r, hrun, ?_⟩
  have hrun8 := hrun 8 le_rfl
  have heval : (merged [.simple (.range .short (-5) 3 .no),
      .simple (.range .short 10 32767 .no)]).intersect 8 (merged [.simple (.const .short 2),
      .simple (.range .short 20 32767 .no)]) =
      .done (some (.merged [.simple (.const .short 2), .simple (.range .short 20 32767 .no)])) := by
    decide
  rw [heval] at hrun8
  exact (Outcome.done.inj hrun8).symm

end VPConstraint

end OMR.Compiler
