import OMR.Compiler.VPMerge

/-!
# The list merges keep separated lists

The loop takes the elements of both lists in the order of their lower bounds and
puts each into the result as `absorb` does. As long as no 32-bit list meets
64-bit elements, it ends with a separated list for exactly the values of both, or
gives up because these are all the values of the type.
-/

namespace OMR.Compiler

open OMR.Lib

namespace VPSimple

theorem merge_eq_mergeSame {s t : VPSimple} (hw : t.width = s.width) (hne : s ≠ t) :
    s.merge t = .done (s.mergeSame t) := by
  rw [merge, if_neg hne, if_neg (by rw [hw]; exact lt_irrefl _), merge1, hw]
  cases s.width <;> rfl

/-- What merging a constraint with an interval above it that it meets or touches
may give: the range that spans both, or `NULL` for the whole type. -/
def Spans (w : Width) (s : VPSimple) (i : Interval) (o : Outcome (Option Entry)) : Prop :=
  (∃ u : VPSimple, o = .done (some (.simple u)) ∧ u.Valid ∧ u.width = w ∧
      u.interval = ⟨s.getLow, max s.getHigh i.high⟩) ∨
    (o = .done none ∧ s.getLow = w.minSigned ∧ max s.getHigh i.high = w.maxSigned)

/-- Two constraints of one width that meet or touch, the lower one first. -/
theorem merge_touching {w : Width} {s t : VPSimple} (hs : s.Valid) (ht : t.Valid)
    (hsw : s.width = w) (htw : t.width = w) (hlow : s.getLow ≤ t.getLow)
    (htouch : t.getLow ≤ s.getHigh + 1) : Spans w s t.interval (s.merge t) := by
  have hmin := hs.min_le
  have hmax := ht.le_max
  have hsle := hs.low_le_high
  have htle := ht.low_le_high
  rw [hsw] at hmin
  rw [htw] at hmax
  by_cases heq : s = t
  · refine Or.inl ⟨s, by rw [merge, if_pos heq], hs, hsw, ?_⟩
    rw [← heq, interval_high, max_self]
    rfl
  · rw [merge_eq_mergeSame (by rw [hsw, htw]) heq, mergeSame, if_neg (by omega), mergeOrdered, hsw]
    by_cases hin : t.getHigh ≤ s.getHigh
    · refine Or.inl ⟨s, by rw [if_pos hin], hs, hsw, ?_⟩
      rw [interval_high, max_eq_left hin]
      rfl
    · -- the upper bound is below the maximum, so that adding one does not wrap
      have hplus : w.plusOne s.getHigh = s.getHigh + 1 := by
        cases w with
        | short => rfl
        | int => exact Width.wrap_of_mem (by omega) (by omega)
        | long => exact Width.wrap_of_mem (by omega) (by omega)
      rw [if_neg hin, hplus, if_pos htouch, Spans, interval_high, max_eq_right (by omega)]
      by_cases hfull : s.getLow = w.minSigned ∧ t.getHigh = w.maxSigned
      · exact Or.inr ⟨by rw [if_pos hfull], hfull⟩
      · obtain ⟨u, hcreate, hu, huw, hui⟩ := exists_rangeCreate hmin (by omega : s.getLow ≤ t.getHigh)
          hmax hfull
        exact Or.inl ⟨u, by rw [if_neg hfull, hcreate]; rfl, hu, huw, hui⟩

end VPSimple

/-- The result list that holds the given constraints, last one first. -/
def ofAcc (acc : List VPSimple) : ResultList := ⟨acc.map fun s => some (.simple s), []⟩

/-- Constraints of width `w` that may be elements of a list. -/
def AllValid (w : Width) (l : List VPSimple) : Prop := ∀ s ∈ l, s.Valid ∧ s.width = w

/-- What putting one interval into a good result may give: the intervals that
`absorb` gives, or nothing because they would be the whole type. -/
def Absorbed (w : Width) (acc : List VPSimple) (i : Interval) (o : Outcome (Option ResultList)) :
    Prop :=
  (∃ acc', o = .done (some (ofAcc acc')) ∧ AllValid w acc' ∧
      acc'.map VPSimple.interval = absorb (acc.map VPSimple.interval) i) ∨
    (o = .done none ∧ (⟨w.minSigned, w.maxSigned⟩ : Interval) ∈ absorb (acc.map VPSimple.interval) i)

/-- Putting an element into a good result. The element has to be a constraint of
the right width only where it becomes one of the result. -/
theorem MergeKind.put_absorbed {k : MergeKind} {acc : List VPSimple} {i : Interval}
    {entry : Option (Option Entry)} {mergeLast : VPSimple → Outcome (Option Entry)}
    (hacc : AllValid k.curWidth acc) (hle : i.low ≤ i.high) (hmax : i.high ≤ k.curWidth.maxSigned)
    (haccepts : Accepts (acc.map VPSimple.interval) i)
    (hentry : (∀ s ∈ acc.head?, s.getHigh + 1 < i.low) → ∃ e : VPSimple,
      entry = some (some (.simple e)) ∧ e.Valid ∧ e.width = k.curWidth ∧ e.interval = i)
    (hmerge : ∀ s ∈ acc.head?, s.Valid → s.width = k.curWidth → s.getLow ≤ i.low →
      i.low ≤ s.getHigh + 1 → VPSimple.Spans k.curWidth s i (mergeLast s)) :
    Absorbed k.curWidth acc i (k.put (ofAcc acc) i.low entry mergeLast) := by
  cases acc with
  | nil =>
    obtain ⟨e, rfl, he, hew, rfl⟩ := hentry (by simp)
    refine Or.inl ⟨[e], rfl, ?_, rfl⟩
    intro s hs
    rw [List.mem_singleton.1 hs]
    exact ⟨he, hew⟩
  | cons s acc =>
    obtain ⟨hs, hsw⟩ := hacc s (by simp)
    have hlow : s.getLow ≤ i.low := haccepts.low_le s.interval (by simp)
    have hput : k.put (ofAcc (s :: acc)) i.low entry mergeLast =
        if s.getHigh = k.curWidth.maxSigned ∨ i.low ≤ s.getHigh + 1 then
          (mergeLast s).bind fun r => .done (r.map fun e => (ofAcc (s :: acc)).setData (some e))
        else .done (entry.map (ofAcc (s :: acc)).addAfter) := by
      rw [MergeKind.put]
      simp only [ofAcc, List.map_cons, Entry.asConstraint_of_width hsw]
    rw [hput]
    by_cases htouch : i.low ≤ s.getHigh + 1
    · have habsorb : absorb ((s :: acc).map VPSimple.interval) i =
          ⟨s.getLow, max s.getHigh i.high⟩ :: acc.map VPSimple.interval := if_pos htouch
      rw [if_pos (Or.inr htouch), Absorbed, habsorb]
      rcases hmerge s (by simp) hs hsw hlow htouch with ⟨u, hu, huv, huw, hui⟩ | ⟨hnone, hmin, hmaxEq⟩
      · refine Or.inl ⟨u :: acc, by rw [hu]; rfl, ?_, by rw [List.map_cons, hui]⟩
        intro t ht
        rcases List.mem_cons.1 ht with rfl | ht
        · exact ⟨huv, huw⟩
        · exact hacc t (List.mem_cons_of_mem _ ht)
      · exact Or.inr ⟨by rw [hnone]; rfl, by rw [hmin, hmaxEq]; simp⟩
    · have habsorb : absorb ((s :: acc).map VPSimple.interval) i =
          i :: (s :: acc).map VPSimple.interval := if_neg htouch
      obtain ⟨e, rfl, he, hew, rfl⟩ := hentry (fun t ht => by
        obtain rfl := Option.some.inj ht
        omega)
      rw [if_neg (by omega)]
      refine Or.inl ⟨e :: s :: acc, rfl, ?_, habsorb.symm⟩
      intro t ht
      rcases List.mem_cons.1 ht with rfl | ht
      · exact ⟨he, hew⟩
      · exact hacc t ht

/-- The two kinds of iterations, told apart by the width of the element. -/
def MergeKind.take (k : MergeKind) (res : ResultList) (e : VPSimple) : Outcome (Option ResultList) :=
  if e.width = k.curWidth then k.takeCur res e else k.takeOther res e

/-- The iterations for a list of elements in turn. -/
def MergeKind.takeAll (k : MergeKind) : List VPSimple → ResultList → Outcome (Option ResultList)
  | [], res => .done (some res)
  | e :: es, res =>
    (k.take res e).bind fun
      | none => .done none
      | some res => k.takeAll es res

/-- The elements of both lists in the order in which the loop takes them. -/
def inOrder (l m : List VPSimple) : List VPSimple :=
  l.merge m fun a b => decide (a.getLow ≤ b.getLow)

theorem MergeKind.takeOther_eq {k : MergeKind} (h : k.otherWidth = k.curWidth) (res : ResultList)
    (e : VPSimple) : k.takeOther res e = k.takeCur res e := by
  rw [takeOther, takeCur]
  have hentry : k.entryOf e = some (some (.simple e)) := by
    rw [entryOf, h]
    cases k.curWidth <;> rfl
  have hmerge : (fun s => k.mergeOther s e) = fun s => s.merge e := by
    funext s
    rw [mergeOther, h]
    cases k.curWidth <;> rfl
  rw [hentry, hmerge]

theorem advance_map {w : Width} {l : List VPSimple} (h : ∀ s ∈ l, s.width = w) :
    advance w (l.map .simple) = (l.head?, l.tail.map .simple) := by
  cases l with
  | nil => rfl
  | cons s l =>
    show ((Entry.simple s).asConstraint w, _) = _
    rw [Entry.asConstraint_of_width (h s (by simp))]
    rfl

/-- The loop takes the elements of both lists in order. -/
theorem mergeLoop_eq_takeAll {k : MergeKind} :
    ∀ (l m : List VPSimple) (res : ResultList), (∀ s ∈ l, s.width = k.curWidth) →
      (∀ s ∈ m, s.width = k.otherWidth) →
      mergeLoop k l.head? (l.tail.map .simple) m.head? (m.tail.map .simple) res =
        k.takeAll (inOrder l m) res := by
  intro l
  -- an element of the other list is taken in the same way whatever its width
  have hother : ∀ {o : VPSimple} (res : ResultList), o.width = k.otherWidth →
      k.take res o = k.takeOther res o := by
    intro o res ho
    rw [MergeKind.take]
    split_ifs with hw
    · exact (MergeKind.takeOther_eq (ho.symm.trans hw) res o).symm
    · rfl
  induction l with
  | nil =>
    intro m
    induction m with
    | nil =>
      intro res _ _
      simp only [List.head?_nil, List.tail_nil, List.map_nil]
      rw [mergeLoop]
      simp [inOrder, MergeKind.takeAll]
    | cons o m ih =>
      intro res hl hm
      have hm' : ∀ s ∈ m, s.width = k.otherWidth := fun s hs => hm s (by simp [hs])
      have horder : inOrder [] (o :: m) = o :: inOrder [] m := by simp [inOrder]
      simp only [List.head?_nil, List.head?_cons, List.tail_cons, List.tail_nil, List.map_nil]
      rw [horder, MergeKind.takeAll, hother res (hm o (by simp)), mergeLoop]
      congr 1
      funext r
      cases r with
      | none => rfl
      | some res =>
        simp only [advance_map hm']
        exact ih res hl hm'
  | cons c l ihl =>
    intro m
    induction m with
    | nil =>
      intro res hl hm
      have hl' : ∀ s ∈ l, s.width = k.curWidth := fun s hs => hl s (by simp [hs])
      have horder : inOrder (c :: l) [] = c :: inOrder l [] := by simp [inOrder]
      have hc : k.take res c = k.takeCur res c := if_pos (hl c (by simp))
      simp only [List.head?_nil, List.head?_cons, List.tail_cons, List.tail_nil, List.map_nil]
      rw [horder, MergeKind.takeAll, hc, mergeLoop]
      congr 1
      funext r
      cases r with
      | none => rfl
      | some res =>
        simp only [advance_map hl']
        exact ihl [] res hl' hm
    | cons o m ihm =>
      intro res hl hm
      have hl' : ∀ s ∈ l, s.width = k.curWidth := fun s hs => hl s (by simp [hs])
      have hm' : ∀ s ∈ m, s.width = k.otherWidth := fun s hs => hm s (by simp [hs])
      have hc : k.take res c = k.takeCur res c := if_pos (hl c (by simp))
      simp only [List.head?_cons, List.tail_cons]
      rw [mergeLoop]
      by_cases hle : c.getLow ≤ o.getLow
      · have horder : inOrder (c :: l) (o :: m) = c :: inOrder l (o :: m) := by
          simp [inOrder, hle]
        rw [horder, MergeKind.takeAll, hc, if_pos hle]
        congr 1
        funext r
        cases r with
        | none => rfl
        | some res =>
          simp only [advance_map hl']
          exact ihl (o :: m) res hl' hm
      · have horder : inOrder (c :: l) (o :: m) = o :: inOrder (c :: l) m := by
          simp [inOrder, hle]
        rw [horder, MergeKind.takeAll, hother res (hm o (by simp)), if_neg hle]
        congr 1
        funext r
        cases r with
        | none => rfl
        | some res =>
          simp only [advance_map hm']
          exact ihm res hl hm'

/-- An element that every good result absorbs. -/
def MergeKind.Behaves (k : MergeKind) (e : VPSimple) : Prop :=
  ∀ acc, AllValid k.curWidth acc → Accepts (acc.map VPSimple.interval) e.interval →
    Absorbed k.curWidth acc e.interval (k.take (ofAcc acc) e)

theorem MergeKind.behaves_of_width {k : MergeKind} {e : VPSimple} (he : e.Valid)
    (hw : e.width = k.curWidth) : k.Behaves e := by
  intro acc hacc haccepts
  rw [MergeKind.take, if_pos hw]
  exact MergeKind.put_absorbed hacc he.low_le_high (hw ▸ he.le_max) haccepts
    (fun _ => ⟨e, rfl, he, hw, rfl⟩)
    fun s _ hs hsw hlow htouch => VPSimple.merge_touching hs he hsw hw hlow htouch

/-- A 32-bit element in a 64-bit list becomes a 64-bit one. -/
theorem MergeKind.behaves_longInt {c : Bool} {e : VPSimple} (he : e.Valid) (hw : e.width = .int) :
    (⟨.long, .int, c⟩ : MergeKind).Behaves e := by
  intro acc hacc haccepts
  have hmin := he.min_le
  have hmax := he.le_max
  rw [hw] at hmin hmax
  have hmin' : Width.long.minSigned < Width.int.minSigned := by decide
  have hmax' : Width.int.maxSigned < Width.long.maxSigned := by decide
  obtain ⟨u, hcreate, hu, huw, hui⟩ := @exists_rangeCreate .long e.getLow e.getHigh (by omega)
    he.low_le_high (by omega) (by omega)
  have hlong : VPLongRange.create e.getLow e.getHigh = some u := hcreate
  have hne : ¬ e.width = Width.long := by rw [hw]; decide
  have hlow : u.getLow = e.getLow := congrArg Interval.low hui
  rw [MergeKind.take, if_neg hne, MergeKind.takeOther]
  simp only [MergeKind.entryOf, MergeKind.mergeOther, hlong, Option.map_some]
  refine @MergeKind.put_absorbed ⟨.long, .int, c⟩ _ e.interval _ _ hacc he.low_le_high ?_ haccepts
    (fun _ => ⟨u, rfl, hu, huw, hui⟩) fun s _ hs hsw hlow' htouch => ?_
  · show e.getHigh ≤ Width.long.maxSigned
    omega
  · have hspans := VPSimple.merge_touching hs hu hsw huw (by rw [hlow]; exact hlow')
      (by rw [hlow]; exact htouch)
    rwa [hui] at hspans

/-- The whole type, once it is absorbed, stays absorbed. -/
theorem mem_valuesOf_of_whole {w : Width} {l : List Interval}
    (h : (⟨w.minSigned, w.maxSigned⟩ : Interval) ∈ l) {x : ℤ} (hx : w.minSigned ≤ x)
    (hx' : x ≤ w.maxSigned) : x ∈ valuesOf l := ⟨_, h, hx, hx'⟩

/-- The iterations for elements in order that all behave. -/
theorem MergeKind.takeAll_absorbs {k : MergeKind} {es : List VPSimple} :
    ∀ {acc : List VPSimple}, AllValid k.curWidth acc →
      Separated (acc.map VPSimple.interval).reverse →
      (∀ s ∈ acc, ∀ e ∈ es, s.getLow ≤ e.getLow) → (∀ e ∈ es, k.Behaves e ∧ e.getLow ≤ e.getHigh) →
      es.Pairwise (fun a b => a.getLow ≤ b.getLow) →
      (∃ acc', k.takeAll es (ofAcc acc) = .done (some (ofAcc acc')) ∧ AllValid k.curWidth acc' ∧
          acc'.map VPSimple.interval =
            (es.map VPSimple.interval).foldl absorb (acc.map VPSimple.interval)) ∨
        (k.takeAll es (ofAcc acc) = .done none ∧
          ∀ x, k.curWidth.minSigned ≤ x → x ≤ k.curWidth.maxSigned →
            x ∈ valuesOf (acc.map VPSimple.interval) ∨ x ∈ valuesOf (es.map VPSimple.interval)) := by
  induction es with
  | nil => exact fun hacc _ _ _ _ => Or.inl ⟨_, rfl, hacc, rfl⟩
  | cons e es ih =>
    intro acc hacc hsep hlow hes hsorted
    obtain ⟨hbehaves, hele⟩ := hes e (by simp)
    have haccepts : Accepts (acc.map VPSimple.interval) e.interval := by
      refine ⟨hsep, fun j hj => ?_⟩
      obtain ⟨s, hs, rfl⟩ := List.mem_map.1 hj
      exact hlow s hs e (by simp)
    have hvals := fun x => @mem_valuesOf_absorb _ _ haccepts x
    rcases hbehaves acc hacc haccepts with ⟨acc', htake, hacc', hmap⟩ | ⟨htake, hwhole⟩
    · have hnext : Accepts (acc'.map VPSimple.interval) e.interval := by
        rw [hmap]
        exact absorb_accepts haccepts hele le_rfl
      have hlow' : ∀ s ∈ acc', ∀ f ∈ es, s.getLow ≤ f.getLow := by
        intro s hs f hf
        have h₁ : s.getLow ≤ e.getLow := hnext.low_le _ (List.mem_map_of_mem hs)
        exact h₁.trans ((List.pairwise_cons.1 hsorted).1 f hf)
      have hstep : k.takeAll (e :: es) (ofAcc acc) = k.takeAll es (ofAcc acc') := by
        rw [MergeKind.takeAll, htake]
        rfl
      rw [hstep]
      rcases ih hacc' hnext.separated hlow' (fun f hf => hes f (by simp [hf]))
        (List.pairwise_cons.1 hsorted).2 with ⟨acc'', hall, hacc'', hmap'⟩ | ⟨hall, hcover⟩
      · refine Or.inl ⟨acc'', hall, hacc'', ?_⟩
        rw [hmap', hmap, List.map_cons, List.foldl_cons]
      · refine Or.inr ⟨hall, fun x hx hx' => ?_⟩
        have := hcover x hx hx'
        rw [hmap, hvals] at this
        rw [List.map_cons, mem_valuesOf_cons]
        tauto
    · refine Or.inr ⟨by rw [MergeKind.takeAll, htake]; rfl, fun x hx hx' => ?_⟩
      have := (hvals x).1 (mem_valuesOf_of_whole hwhole hx hx')
      rw [List.map_cons, mem_valuesOf_cons]
      tauto

end OMR.Compiler
