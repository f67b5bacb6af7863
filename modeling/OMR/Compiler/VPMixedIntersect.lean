import OMR.Compiler.VPIntersectExact

/-!
# Intersections of constraints of different widths

A list of 32-bit ranges meets a 64-bit range, and the other way round, in the
same loop as two lists of one width, and the result is exact. Two constants or
ranges of different widths are intersected by narrowing the larger of the lower
bounds and the smaller of the upper bounds; nothing looks whether they are still
in order, so that the result is exact only when the two have a common value, or
when the narrowed bounds happen to be the two ends of the 16-bit type.
-/

namespace OMR.Compiler

open OMR.Lib

namespace VPSimple

/-- The two ranges have a value in common. -/
def Meets (s t : VPSimple) : Prop := s.getLow ≤ t.getHigh ∧ t.getLow ≤ s.getHigh

instance (s t : VPSimple) : Decidable (s.Meets t) := inferInstanceAs (Decidable (_ ∧ _))

/-- A 16-bit range `s` and a wider range `t` beyond one end of the 16-bit type,
whose nearer bound narrows to the opposite end. -/
def NarrowsToWhole (s t : VPSimple) : Prop :=
  (s.getHigh = Width.short.maxSigned ∧ s.getHigh < t.getLow ∧
      Width.short.wrap t.getLow = Width.short.minSigned) ∨
    (s.getLow = Width.short.minSigned ∧ t.getHigh < s.getLow ∧
      Width.short.wrap t.getHigh = Width.short.maxSigned)

instance (s t : VPSimple) : Decidable (s.NarrowsToWhole t) := inferInstanceAs (Decidable (_ ∨ _))

variable {s t : VPSimple}

theorem lowVal_eq (s t : VPSimple) : s.lowVal t = max s.getLow t.getLow := by
  rw [lowVal, max_def]
  split_ifs <;> omega

theorem highVal_eq (s t : VPSimple) : s.highVal t = min s.getHigh t.getHigh := by
  rw [highVal, min_def]
  split_ifs <;> omega

theorem Meets.symm (h : s.Meets t) : t.Meets s := ⟨h.2, h.1⟩

/-- Two ranges that do not meet have no common value. -/
theorem inter_eq_empty (h : ¬ s.Meets t) :
    s.values ∩ t.values = ∅ := by
  refine Set.eq_empty_of_forall_notMem fun x hx => h ?_
  have hxs := mem_values.1 hx.1
  have hxt := mem_values.1 hx.2
  exact ⟨by omega, by omega⟩

/-- The narrowed bounds of two ranges that meet make the constraint for the
common values, in the width `w` of the narrower range or a wider one. -/
theorem rangeCreate_meets {w v : Width} (hs : s.Valid) (ht : t.Valid) (hw : s.width = w)
    (hv : w.half ≤ v.half) (hpart : w = v → ¬ (s.getLow = w.minSigned ∧ s.getHigh = w.maxSigned))
    (h : s.Meets t) :
    VPConstraint.IsIntersection v s.values t.values
      ((rangeCreate v (w.wrap (s.lowVal t)) (w.wrap (s.highVal t))).map .simple) := by
  obtain ⟨h₁, h₂⟩ := h
  have hmin := hs.min_le
  have hmax := hs.le_max
  have hsle := hs.low_le_high
  have htle := ht.low_le_high
  rw [hw] at hmin hmax
  have hmin' : v.minSigned ≤ w.minSigned := by simp only [Width.minSigned]; omega
  have hmax' : w.maxSigned ≤ v.maxSigned := by simp only [Width.maxSigned]; omega
  rw [lowVal_eq, highVal_eq, Width.wrap_of_mem (by omega) (by omega),
    Width.wrap_of_mem (by omega) (by omega)]
  obtain ⟨c, hcreate, hc, hcw, hci⟩ := @exists_rangeCreate v (max s.getLow t.getLow)
    (min s.getHigh t.getHigh) (by omega) (by omega) (by omega) (by
      rintro ⟨hlow, hhigh⟩
      by_cases hwv : w = v
      · subst hwv
        exact hpart rfl ⟨by omega, by omega⟩
      · -- a wider type has values that the narrower one has not
        have hlt : w.half < v.half := by
          revert hwv hv
          cases w <;> cases v <;> decide
        simp only [Width.minSigned, Width.maxSigned] at *
        omega)
  rw [hcreate]
  refine VPConstraint.isIntersection_some (.simple hc hcw) ?_
  ext x
  have hlow : c.getLow = max s.getLow t.getLow := congrArg Interval.low hci
  have hhigh : c.getHigh = min s.getHigh t.getHigh := congrArg Interval.high hci
  simp only [VPConstraint.values, Set.mem_inter_iff, mem_values, hlow, hhigh]
  omega

end VPSimple

namespace VPConstraint

/-- Operands of different widths: constants and ranges, or a list of 32-bit
ranges with a 64-bit one or a list of 64-bit ranges with a 32-bit one. -/
inductive Mixed : VPConstraint → VPConstraint → Prop
  | simple {s t : VPSimple} (hs : s.Valid) (ht : t.Valid) (hw : s.width ≠ t.width) :
      Mixed (.simple s) (.simple t)
  | intList {l : List VPSimple} {t : VPSimple} (hl : ListOf .int l) (ht : t.Valid)
      (hw : t.width = .long) : Mixed (.merged (l.map .simple)) (.simple t)
  | longList {l : List VPSimple} {t : VPSimple} (hl : ListOf .long l) (ht : t.Valid)
      (hw : t.width = .int) : Mixed (.merged (l.map .simple)) (.simple t)

/-- The intersection ends and is a valid constraint for exactly the common
values, or `NULL` when there are none. -/
def IntersectsExactly (a b : VPConstraint) : Prop :=
  ∃ r w, (∀ fuel, 2 * (a.length + b.length) ≤ fuel → a.intersect fuel b = .done r) ∧
    IsIntersection w a.values b.values r

/-- The condition under which the narrowing is harmless. -/
def NarrowingHarmless : VPConstraint → VPConstraint → Prop
  | .simple s, .simple t =>
    s.Meets t ∨ (s.width = .short ∧ s.NarrowsToWhole t) ∨ (t.width = .short ∧ t.NarrowsToWhole s)
  | _, _ => True

instance : ∀ a b : VPConstraint, Decidable (NarrowingHarmless a b)
  | .simple s, .simple t => inferInstanceAs (Decidable (s.Meets t ∨
      (s.width = .short ∧ s.NarrowsToWhole t) ∨ (t.width = .short ∧ t.NarrowsToWhole s)))
  | .simple _, .merged _ => isTrue trivial
  | .merged _, .simple _ => isTrue trivial
  | .merged _, .merged _ => isTrue trivial

/-- Two constants or ranges, of which `s` has the higher priority. -/
theorem intersect_simple_of_priority {s t : VPSimple} (h : t.width.priority < s.width.priority)
    (fuel : ℕ) :
    (simple s).intersect fuel (simple t) = .done ((s.intersect1 t).map .simple) ∧
      (simple t).intersect fuel (simple s) = .done ((s.intersect1 t).map .simple) := by
  have hne : s ≠ t := by
    rintro rfl
    exact lt_irrefl _ h
  have hst : simple s ≠ simple t := fun heq => hne (VPConstraint.simple.inj heq)
  constructor
  · rw [intersect, if_neg hst, if_neg (by simp only [priority]; omega), intersect1]
  · rw [intersect, if_neg hst.symm, if_pos (by simp only [priority]; omega), intersect1]

/-- The list intersections for operands of the other width. -/
theorem merged_intersect_mixed {k : WalkKind} {l : List VPSimple} {t : VPSimple}
    (hwide : k.reload = true → k.curWidth.maxSigned ≤ k.otherWidth.maxSigned)
    (hl : ListOf k.curWidth l) (ht : t.Valid) (hw : t.width = k.otherWidth)
    (hcall : ∀ fuel, VPMergedConstraints.intersect1 fuel (l.map .simple) (.simple t) =
      VPMergedConstraints.walkFrom k fuel (l.map .simple) t []) :
    IntersectsExactly (merged (l.map .simple)) (.simple t) ∧
      IntersectsExactly (.simple t) (merged (l.map .simple)) := by
  obtain ⟨r, hrun, hr⟩ := @VPMergedConstraints.walkFrom_isIntersection k hwide l [] t hl
    (by simpa using ht) (by simpa using hw) (Ordered.singleton ht.low_le_high)
  have hvals : valuesOf ([t].map VPSimple.interval) = (VPConstraint.simple t).values := by
    ext x
    simp [values, VPSimple.values]
  rw [hvals, ← values_merged] at hr
  have hfuel : ∀ fuel, 2 * (l.length + 1) ≤ fuel →
      VPMergedConstraints.intersect1 fuel (l.map .simple) (.simple t) = .done r := by
    intro fuel hfuel
    rw [hcall]
    exact hrun fuel (by simp only [List.length_nil]; omega)
  have hprio : (merged (l.map .simple)).priority > (simple t).priority := by
    simp only [priority]
    cases t.width <;> decide
  constructor
  · refine ⟨r, k.curWidth, fun fuel hle => ?_, hr⟩
    rw [intersect, if_neg (by simp), if_neg (by omega)]
    refine hfuel fuel ?_
    simpa [length] using hle
  · refine ⟨r, k.curWidth, fun fuel hle => ?_, hr.symm⟩
    rw [intersect, if_neg (by simp), if_pos hprio]
    refine hfuel fuel ?_
    simp only [length, List.length_map] at hle
    omega

/-- For operands without a common value, only `NULL` is exact. -/
theorem isIntersection_disjoint {s t : VPSimple} {r : Option VPSimple} (h : ¬ s.Meets t) :
    (∃ w, IsIntersection w s.values t.values (r.map .simple)) ↔ r = none := by
  have hempty := VPSimple.inter_eq_empty h
  constructor
  · rintro ⟨w, hr⟩
    exact Option.map_eq_none_iff.1 (hr.null_iff.2 hempty)
  · rintro rfl
    refine ⟨.short, isIntersection_none fun x hx hx' => ?_⟩
    exact Set.notMem_empty x (hempty ▸ ⟨hx, hx'⟩)

/-- A 16-bit operand with a wider one. -/
theorem short_intersect1_exact_iff {s t : VPSimple} (hs : s.Valid) (ht : t.Valid)
    (hsw : s.width = .short) (htw : t.width ≠ .short) :
    (∃ w, IsIntersection w s.values t.values ((s.intersect1 t).map .simple)) ↔
      s.Meets t ∨ s.NarrowsToWhole t := by
  have hcall : s.intersect1 t = rangeCreate .short (Width.short.wrap (s.lowVal t))
      (Width.short.wrap (s.highVal t)) := by
    rw [VPSimple.intersect1, hsw]
    cases hw : t.width with
    | short => exact absurd hw htw
    | int => rfl
    | long => rfl
  rw [hcall]
  have hpart : ¬ (s.getLow = Width.short.minSigned ∧ s.getHigh = Width.short.maxSigned) := by
    rintro ⟨hlow, hhigh⟩
    have := hs.partly (by rw [hsw, hlow]) (by rw [hsw, hhigh])
    rw [hsw] at this
    cases this
  by_cases hmeet : s.Meets t
  · exact ⟨fun _ => Or.inl hmeet,
      fun _ => ⟨.short, VPSimple.rangeCreate_meets hs ht hsw le_rfl (fun _ => hpart) hmeet⟩⟩
  · rw [isIntersection_disjoint hmeet, rangeCreate_eq_none, VPSimple.lowVal_eq, VPSimple.highVal_eq]
    have hmin := hs.min_le
    have hmax := hs.le_max
    have hsle := hs.low_le_high
    have htle := ht.low_le_high
    rw [hsw] at hmin hmax
    have hwlow : Width.short.wrap s.getLow = s.getLow := Width.wrap_of_mem hmin (by omega)
    have hwhigh : Width.short.wrap s.getHigh = s.getHigh := Width.wrap_of_mem (by omega) hmax
    rw [or_iff_right hmeet, VPSimple.NarrowsToWhole]
    rcases lt_or_ge s.getHigh t.getLow with hlt | hge
    · -- the wider range lies above
      rw [max_eq_right (by omega), min_eq_left (by omega), hwhigh]
      constructor
      · rintro ⟨hl, hh⟩
        exact Or.inl ⟨hh, hlt, hl⟩
      · rintro (⟨hh, -, hl⟩ | ⟨-, hlt', -⟩)
        · exact ⟨hl, hh⟩
        · omega
    · -- the wider range lies below
      have hlt : t.getHigh < s.getLow := by
        by_contra hle
        exact hmeet ⟨by omega, hge⟩
      rw [max_eq_left (by omega), min_eq_right (by omega), hwlow]
      constructor
      · rintro ⟨hl, hh⟩
        exact Or.inr ⟨hl, hlt, hh⟩
      · rintro (⟨-, hlt', -⟩ | ⟨hl, -, hh⟩)
        · omega
        · exact ⟨hl, hh⟩

/-- A 32-bit operand with a 64-bit one: the narrowed bounds never are those of
the whole 64-bit type. -/
theorem int_intersect1_exact_iff {s t : VPSimple} (hs : s.Valid) (ht : t.Valid)
    (hsw : s.width = .int) (htw : t.width = .long) :
    (∃ w, IsIntersection w s.values t.values ((s.intersect1 t).map .simple)) ↔ s.Meets t := by
  have hcall : s.intersect1 t = rangeCreate .long (Width.int.wrap (s.lowVal t))
      (Width.int.wrap (s.highVal t)) := by
    rw [VPSimple.intersect1, hsw, htw]
    rfl
  rw [hcall]
  by_cases hmeet : s.Meets t
  · exact ⟨fun _ => hmeet, fun _ => ⟨.long,
      VPSimple.rangeCreate_meets hs ht hsw (by decide) (fun h => by cases h) hmeet⟩⟩
  · rw [isIntersection_disjoint hmeet, rangeCreate_eq_none]
    refine ⟨fun h => ?_, fun h => absurd h hmeet⟩
    have hmin := (Width.int.wrap_mem (s.lowVal t)).1
    rw [h.1] at hmin
    exact absurd hmin (by decide)

/-- Constants and ranges, of which `s` has the higher priority. -/
theorem mixed_simple_exact_iff {s t : VPSimple} (hs : s.Valid) (ht : t.Valid)
    (hprio : t.width.priority < s.width.priority) :
    (IntersectsExactly (.simple s) (.simple t) ∧ IntersectsExactly (.simple t) (.simple s)) ↔
      s.Meets t ∨ (s.width = .short ∧ s.NarrowsToWhole t) := by
  have hcall := intersect_simple_of_priority hprio
  have hexact : (IntersectsExactly (.simple s) (.simple t) ∧
      IntersectsExactly (.simple t) (.simple s)) ↔
      ∃ w, IsIntersection w s.values t.values ((s.intersect1 t).map .simple) := by
    constructor
    · rintro ⟨⟨r, w, hrun, hr⟩, -⟩
      have hdone := hrun _ le_rfl
      rw [(hcall _).1] at hdone
      exact ⟨w, by rw [Outcome.done.inj hdone]; exact hr⟩
    · rintro ⟨w, hr⟩
      exact ⟨⟨_, w, fun fuel _ => (hcall fuel).1, hr⟩, ⟨_, w, fun fuel _ => (hcall fuel).2, hr.symm⟩⟩
  rw [hexact]
  cases hsw : s.width with
  | short =>
    have htw : t.width ≠ .short := by
      intro htw
      rw [hsw, htw] at hprio
      exact lt_irrefl _ hprio
    rw [short_intersect1_exact_iff hs ht hsw htw]
    simp
  | int =>
    have htw : t.width = .long := by
      rw [hsw] at hprio
      revert hprio
      cases t.width <;> simp [Width.priority]
    rw [int_intersect1_exact_iff hs ht hsw htw]
    simp
  | long =>
    rw [hsw] at hprio
    revert hprio
    cases t.width <;> simp [Width.priority]

/-- The intersection of operands of different widths is exact, in both orders of
the operands, exactly when two constants or ranges meet or the narrowed bounds
are those of the whole 16-bit type; for a list and a range it always is. -/
theorem mixed_intersect_exact_iff (a b : VPConstraint) (h : Mixed a b) :
    (IntersectsExactly a b ∧ IntersectsExactly b a) ↔ NarrowingHarmless a b := by
  cases h with
  | @simple s t hs ht hw =>
    have hpriority : s.width.priority ≠ t.width.priority := by
      revert hw
      cases s.width <;> cases t.width <;> simp [Width.priority]
    have hnot : ∀ {u v : VPSimple}, v.width.priority < u.width.priority → v.width ≠ .short := by
      intro u v hlt hv
      rw [hv] at hlt
      revert hlt
      cases u.width <;> simp [Width.priority]
    rw [NarrowingHarmless]
    rcases lt_or_gt_of_ne hpriority with hlt | hlt
    · rw [and_comm, mixed_simple_exact_iff ht hs hlt]
      have hs' := hnot hlt
      constructor
      · rintro (hmeet | hwhole)
        · exact Or.inl hmeet.symm
        · exact Or.inr (Or.inr hwhole)
      · rintro (hmeet | ⟨hshort, -⟩ | hwhole)
        · exact Or.inl hmeet.symm
        · exact absurd hshort hs'
        · exact Or.inr hwhole
    · rw [mixed_simple_exact_iff hs ht hlt]
      have ht' := hnot hlt
      constructor
      · rintro (hmeet | hwhole)
        · exact Or.inl hmeet
        · exact Or.inr (Or.inl hwhole)
      · rintro (hmeet | hwhole | ⟨hshort, -⟩)
        · exact Or.inl hmeet
        · exact Or.inr hwhole
        · exact absurd hshort ht'
  | @intList l t hl ht hw =>
    refine iff_of_true ?_ trivial
    apply @merged_intersect_mixed ⟨.int, .long, true⟩ l t (fun _ => by decide) hl ht hw
    intro fuel
    rw [VPMergedConstraints.intersect1, mergedType_map hl]
    have hint : (Entry.simple t).asConstraint .int = none := if_neg (by rw [hw]; decide)
    simp only [VPMergedConstraints.intIntersect, hint, Entry.asConstraint_of_width hw]
  | @longList l t hl ht hw =>
    refine iff_of_true ?_ trivial
    apply @merged_intersect_mixed ⟨.long, .int, false⟩ l t (fun h => by cases h) hl ht hw
    intro fuel
    rw [VPMergedConstraints.intersect1, mergedType_map hl]
    have hlong : (Entry.simple t).asConstraint .long = none := if_neg (by rw [hw]; decide)
    simp only [VPMergedConstraints.longIntersect, hlong, Entry.asConstraint_of_width hw]

/-- A 32-bit and a 64-bit range that meet. -/
theorem mixed_intersect_exact_iff_meeting :
    IntersectsExactly (.simple (.range .int (-4) 9 .no)) (.simple (.range .long 3 5000000000 .no)) ∧
      IntersectsExactly (.simple (.range .long 3 5000000000 .no))
        (.simple (.range .int (-4) 9 .no)) :=
  (mixed_intersect_exact_iff _ _ (.simple (by decide) (by decide) (by decide))).2 (by decide)

/-- Disjoint operands get a range whose bounds are in the wrong order. -/
theorem mixed_intersect_disjoint_not_exact :
    Mixed (.simple (.range .int 0 5 .no)) (.simple (.range .long 10 20 .no)) ∧
      (simple (.range .int 0 5 .no)).intersect 4 (.simple (.range .long 10 20 .no)) =
        .done (some (.simple (.range .long 10 5 .no))) ∧
      ¬ (IntersectsExactly (.simple (.range .int 0 5 .no)) (.simple (.range .long 10 20 .no)) ∧
        IntersectsExactly (.simple (.range .long 10 20 .no)) (.simple (.range .int 0 5 .no))) := by
  refine ⟨.simple (by decide) (by decide) (by decide), by decide, fun h => ?_⟩
  obtain ⟨r, w, hrun, hr⟩ := h.1
  have hdone : (simple (.range .int 0 5 .no)).intersect 4 (.simple (.range .long 10 20 .no)) =
      .done (some (.simple (.range .long 10 5 .no))) := by decide
  have hr' : r = some (.simple (.range .long 10 5 .no)) :=
    Outcome.done.inj ((hrun 4 le_rfl).symm.trans hdone)
  have hempty : (simple (.range .int 0 5 .no)).values ∩ (simple (.range .long 10 20 .no)).values = ∅ :=
    VPSimple.inter_eq_empty (by decide)
  rw [hr.null_iff.2 hempty] at hr'
  cases hr'

end VPConstraint

end OMR.Compiler
