import OMR.Compiler.VPMergeLists
import OMR.Compiler.VPIntersectExact

/-!
# When merging is an upper bound

`MergesSoundly` is what the users of `merge` rely on: the result is defined,
allows the values of both operands, and is a well-formed constraint whose bounds
are its least and greatest value. The source breaks it in two places. A 16-bit
list answers `getHighShort` with the upper bound of its first range, so that no
such list may come out of a merge. And the merge of a 32-bit with a 64-bit
constraint increments the upper bound at 32 bits, which wraps at the maximum.
-/

namespace OMR.Compiler

open OMR.Lib

namespace VPConstraint

/-- A well-formed result: a constant, a range, or a list of non-empty ranges in
increasing order that neither meet nor touch, whose bounds are its least and its
greatest value. -/
structure WellMerged (w : Width) (c : VPConstraint) : Prop where
  valid : c.Valid w
  separated : ∀ l : List VPSimple, c = .merged (l.map .simple) → Separated (l.map VPSimple.interval)
  low : ∃ m, c.getLowAt w = some m ∧ IsLeast c.values m
  high : ∃ m, c.getHighAt w = some m ∧ IsGreatest c.values m

/-- The merge is defined, allows the values of both operands, and is `NULL` or a
well-formed constraint. -/
def MergesSoundly (a b : VPConstraint) : Prop :=
  ∃ r, a.merge b = .done r ∧ a.values ∪ b.values ⊆ allowed r ∧
    ∀ c, r = some c → ∃ w, WellMerged w c

/-- The constraint for a list of constants and ranges, as `collapse` makes it. -/
def ofList : List VPSimple → VPConstraint
  | [s] => .simple s
  | l => .merged (l.map .simple)

theorem values_ofList (l : List VPSimple) :
    (ofList l).values = valuesOf (l.map VPSimple.interval) := by
  match l with
  | [] => exact values_merged []
  | [s] =>
    ext x
    simp [ofList, values, VPSimple.values]
  | s :: t :: l => exact values_merged _

theorem wellMerged_simple {w : Width} {s : VPSimple} (hs : s.Valid) (hw : s.width = w) :
    WellMerged w (.simple s) := by
  have hvalid : Valid w (.simple s) := .simple hs hw
  exact ⟨hvalid, fun l h => by simp at h, hvalid.getLowAt_isLeast,
    hvalid.getHighAt_isGreatest fun _ es h => by simp at h⟩

theorem listOf_of_separated {w : Width} {l : List VPSimple} (hl : AllValid w l)
    (hsep : Separated (l.map VPSimple.interval)) (hlen : 2 ≤ l.length) : ListOf w l :=
  ⟨hlen, fun s hs => (hl s hs).1, fun s hs => (hl s hs).2, hsep.ordered⟩

theorem wellMerged_list {w : Width} {l : List VPSimple} (hl : ListOf w l)
    (hsep : Separated (l.map VPSimple.interval)) (hw : w ≠ .short) :
    WellMerged w (.merged (l.map .simple)) := by
  have hvalid : Valid w (.merged (l.map .simple)) := .merged hl
  refine ⟨hvalid, fun l' h => ?_, hvalid.getLowAt_isLeast, hvalid.getHighAt_isGreatest ?_⟩
  · rw [← map_simple_injective (VPConstraint.merged.inj h)]
    exact hsep
  · exact fun h => absurd h hw

/-- A 16-bit list does not know its greatest value. -/
theorem not_wellMerged_shortList {l : List VPSimple} (hl : ListOf .short l) (w : Width) :
    ¬ WellMerged w (.merged (l.map .simple)) := by
  intro h
  have hw : w = .short := by
    obtain ⟨s, m, rfl⟩ := List.exists_cons_of_length_pos (by have := hl.two_le; omega : 0 < l.length)
    exact ((ListOf.of_valid h.valid).width s (by simp)).symm.trans (hl.width s (by simp))
  subst hw
  obtain ⟨s, m, rfl⟩ := List.exists_cons_of_length_pos (by have := hl.two_le; omega : 0 < l.length)
  obtain ⟨t, m, rfl⟩ := List.exists_cons_of_length_pos
    (by have := hl.two_le; simp at this; omega : 0 < m.length)
  obtain ⟨n, hn, hgreatest⟩ := h.high
  have hns : s.getHigh = n := by
    rw [← Option.some.inj hn]
    exact (if_pos (hl.width s (by simp))).symm
  -- the second range lies above the upper bound of the first
  have hlt : s.getHigh < t.getLow := (List.pairwise_cons.1 hl.ordered.apart).1 t.interval (by simp)
  have hmem : t.getLow ∈ (VPConstraint.merged ((s :: t :: m).map .simple)).values := by
    rw [values_merged]
    exact ⟨t.interval, by simp, le_rfl, (hl.valid t (by simp)).low_le_high⟩
  have := hgreatest.2 hmem
  omega

end VPConstraint

open VPConstraint

/-- The end of a list merge for a good result. -/
theorem finishMerge_ofAcc {acc : List VPSimple} (hne : acc ≠ []) :
    VPMergedConstraints.finishMerge (some (ofAcc acc)) = .done (some (ofList acc.reverse)) := by
  have hlist : (ofAcc acc).toList = acc.reverse.map fun s => some (Entry.simple s) := by
    simp [ofAcc, ResultList.toList]
  rw [VPMergedConstraints.finishMerge, hlist]
  match hl : acc.reverse with
  | [] => exact absurd (List.reverse_eq_nil_iff.1 hl) hne
  | [s] => rfl
  | s :: t :: l =>
    have hmap : ((s :: t :: l).map fun s => some (Entry.simple s)) =
        ((s :: t :: l).map Entry.simple).map some := by simp
    rw [hmap]
    show (VPMergedConstraints.create (((s :: t :: l).map Entry.simple).map some)).bind _ = _
    simp only [VPMergedConstraints.create, nonNull_map_some, Outcome.bind_done]
    rfl

theorem pairwise_inOrder {l m : List VPSimple} (hl : Ordered (l.map VPSimple.interval))
    (hm : Ordered (m.map VPSimple.interval)) :
    (inOrder l m).Pairwise fun a b => a.getLow ≤ b.getLow := by
  have hsorted : ∀ {l : List VPSimple}, Ordered (l.map VPSimple.interval) →
      l.Pairwise fun a b => decide (a.getLow ≤ b.getLow) = true := by
    intro l hl
    refine (List.pairwise_map.1 hl.apart).imp_of_mem fun ha _ hab => ?_
    have hle := hl.nonempty _ (List.mem_map_of_mem ha)
    simp only [VPSimple.interval_low, VPSimple.interval_high] at hab hle
    exact decide_eq_true (by omega)
  refine (List.pairwise_merge (fun a b c hab hbc => ?_) (fun a b => ?_) l m (hsorted hl)
    (hsorted hm)).imp fun h => by simpa using h
  · simp only [decide_eq_true_eq] at *
    omega
  · simp only [Bool.or_eq_true, decide_eq_true_eq]
    omega

theorem mem_inOrder {l m : List VPSimple} {s : VPSimple} : s ∈ inOrder l m ↔ s ∈ l ∨ s ∈ m := by
  rw [inOrder, List.mem_merge]

theorem mem_valuesOf_inOrder {l m : List VPSimple} {x : ℤ} :
    x ∈ valuesOf ((inOrder l m).map VPSimple.interval) ↔
      x ∈ valuesOf (l.map VPSimple.interval) ∨ x ∈ valuesOf (m.map VPSimple.interval) := by
  rw [← mem_valuesOf_append, ← List.map_append]
  simp only [valuesOf, Set.mem_ofPred_eq, List.mem_map, mem_inOrder, List.mem_append]

/-- A list merge takes the elements of both lists in order, from an empty result. -/
theorem mergeFrom_eq_takeAll {k : MergeKind} {l otherRest : List VPSimple} {o : VPSimple}
    (hl : ListOf k.curWidth l) (hwidth : ∀ s ∈ o :: otherRest, s.width = k.otherWidth) :
    VPMergedConstraints.mergeFrom k (l.map .simple) o (otherRest.map .simple) =
      (k.takeAll (inOrder l (o :: otherRest)) (ofAcc [])).bind VPMergedConstraints.finishMerge := by
  obtain ⟨s, rest, rfl⟩ := List.exists_cons_of_length_pos (by have := hl.two_le; omega : 0 < l.length)
  have hs : (Entry.simple s).asConstraint k.curWidth = some s :=
    Entry.asConstraint_of_width (hl.width s (by simp))
  have hloop := mergeLoop_eq_takeAll (s :: rest) (o :: otherRest) (ofAcc []) hl.width hwidth
  simp only [List.head?_cons, List.tail_cons] at hloop
  rw [List.map_cons, VPMergedConstraints.mergeFrom, hs, ← hloop]
  rfl

/-- A list merge whose elements all behave: a separated list for the values of
both, or `NULL` for the whole type. -/
theorem mergeFrom_absorbs {k : MergeKind} {l otherRest : List VPSimple} {o : VPSimple}
    (hl : ListOf k.curWidth l) (hwidth : ∀ s ∈ o :: otherRest, s.width = k.otherWidth)
    (hordered : Ordered ((o :: otherRest).map VPSimple.interval))
    (hbehaves : ∀ s ∈ o :: otherRest, k.Behaves s) :
    (∃ l', VPMergedConstraints.mergeFrom k (l.map .simple) o (otherRest.map .simple) =
          .done (some (ofList l')) ∧ AllValid k.curWidth l' ∧ l' ≠ [] ∧
        Separated (l'.map VPSimple.interval) ∧ ∀ x, x ∈ valuesOf (l'.map VPSimple.interval) ↔
          x ∈ valuesOf (l.map VPSimple.interval) ∨
            x ∈ valuesOf ((o :: otherRest).map VPSimple.interval)) ∨
      (VPMergedConstraints.mergeFrom k (l.map .simple) o (otherRest.map .simple) = .done none ∧
        ∀ x, k.curWidth.minSigned ≤ x → x ≤ k.curWidth.maxSigned →
          x ∈ valuesOf (l.map VPSimple.interval) ∨
            x ∈ valuesOf ((o :: otherRest).map VPSimple.interval)) := by
  have hloop := mergeFrom_eq_takeAll hl hwidth
  obtain ⟨s, rest, rfl⟩ := List.exists_cons_of_length_pos (by have := hl.two_le; omega : 0 < l.length)
  have hall : ∀ e ∈ inOrder (s :: rest) (o :: otherRest), k.Behaves e ∧ e.getLow ≤ e.getHigh := by
    intro e he
    rcases mem_inOrder.1 he with he | he
    · exact ⟨MergeKind.behaves_of_width (hl.valid e he) (hl.width e he), (hl.valid e he).low_le_high⟩
    · exact ⟨hbehaves e he, hordered.nonempty _ (List.mem_map_of_mem he)⟩
  have hsorted := pairwise_inOrder hl.ordered hordered
  rw [hloop]
  rcases @MergeKind.takeAll_absorbs k _ [] (by simp [AllValid])
    ⟨by simp, by simp⟩ (by simp) hall hsorted with ⟨acc, htake, hacc, hmap⟩ | ⟨htake, hcover⟩
  · have hsorted' : ((inOrder (s :: rest) (o :: otherRest)).map VPSimple.interval).Pairwise
        fun a b => a.low ≤ b.low := List.pairwise_map.2 hsorted
    have hnonempty : ∀ i ∈ (inOrder (s :: rest) (o :: otherRest)).map VPSimple.interval,
        i.low ≤ i.high := by
      intro i hi
      obtain ⟨e, he, rfl⟩ := List.mem_map.1 hi
      exact (hall e he).2
    obtain ⟨hsep, hvals⟩ := @foldl_absorb _ [] ⟨by simp, by simp⟩ (by simp) hnonempty hsorted'
    rw [List.map_nil] at hmap
    rw [← hmap] at hsep hvals
    have hvals' : ∀ x, x ∈ valuesOf (acc.reverse.map VPSimple.interval) ↔
        x ∈ valuesOf ((s :: rest).map VPSimple.interval) ∨
          x ∈ valuesOf ((o :: otherRest).map VPSimple.interval) := by
      intro x
      rw [List.map_reverse, mem_valuesOf_reverse, hvals, mem_valuesOf_inOrder]
      simp
    have hne : acc ≠ [] := by
      rintro rfl
      have hs := (hl.valid s (by simp)).low_le_high
      have := (hvals' s.getLow).2 (Or.inl ⟨s.interval, by simp, le_rfl, hs⟩)
      simp at this
    refine Or.inl ⟨acc.reverse, ?_, ?_, by simpa using hne, ?_, hvals'⟩
    · rw [htake, Outcome.bind_done, finishMerge_ofAcc hne]
    · intro t ht
      exact hacc t (List.mem_reverse.1 ht)
    · rwa [List.map_reverse]
  · refine Or.inr ⟨by rw [htake]; rfl, fun x hx hx' => ?_⟩
    have := hcover x hx hx'
    rw [mem_valuesOf_inOrder] at this
    simpa using this

/-! ## A 32-bit list and 64-bit elements -/

/-- The loop of `intMerge` for 64-bit elements. -/
def intLong : MergeKind := ⟨.int, .long, false⟩

/-- A range within the 32-bit type. -/
def InInt (e : VPSimple) : Prop :=
  Width.int.minSigned ≤ e.getLow ∧ e.getHigh ≤ Width.int.maxSigned

instance (e : VPSimple) : Decidable (InInt e) := inferInstanceAs (Decidable (_ ∧ _))

section IntLong

variable {acc : List VPSimple} {e s : VPSimple}

theorem intLong_take_long (hw : e.width = .long) (res : ResultList) :
    intLong.take res e = intLong.put res e.getLow (intLong.entryOf e) fun s => s.merge e := by
  rw [MergeKind.take, if_neg (by rw [hw]; decide)]
  rfl

theorem merge_int_long (hs : s.width = .int) (he : e.width = .long) :
    s.merge e = s.intMerge1Long e := by
  have hne : s ≠ e := by
    rintro rfl
    rw [hs] at he
    cases he
  rw [VPSimple.merge, if_neg hne, hs, he, if_neg (by decide), VPSimple.merge1, hs, he]

/-- A 64-bit element outside the 32-bit type ends the merge. -/
theorem intLong_take_outside (hacc : AllValid .int acc) (hw : e.width = .long) (he : ¬ InInt e) :
    intLong.take (ofAcc acc) e = .done none := by
  have hout : e.getLow < Width.int.minSigned ∨ e.getHigh > Width.int.maxSigned := by
    rw [InInt] at he
    omega
  have hentry : intLong.entryOf e = none := by
    rw [MergeKind.entryOf]
    exact if_pos hout
  rw [intLong_take_long hw, hentry]
  cases acc with
  | nil => rfl
  | cons s acc =>
    obtain ⟨-, hsw⟩ := hacc s (by simp)
    have hmerge : s.merge e = .done none := by
      rw [merge_int_long hsw hw, VPSimple.intMerge1Long, if_pos hout]
    have hcast : (Entry.simple s).asConstraint intLong.curWidth = some s :=
      Entry.asConstraint_of_width hsw
    rw [MergeKind.put]
    simp only [ofAcc, List.map_cons, hcast, hmerge]
    split_ifs <;> rfl

/-- The 32-bit version of a 64-bit element within the 32-bit type. -/
theorem exists_intVersion (hle : e.getLow ≤ e.getHigh) (he : InInt e)
    (hpart : ¬ (e.getLow = Width.int.minSigned ∧ e.getHigh = Width.int.maxSigned)) :
    ∃ u : VPSimple, u.Valid ∧ u.width = .int ∧ u.interval = e.interval ∧
      VPIntRange.create (Width.int.wrap e.getLow) (Width.int.wrap e.getHigh) = some u := by
  obtain ⟨hmin, hmax⟩ := he
  rw [Width.wrap_of_mem hmin (by omega), Width.wrap_of_mem (by omega) hmax]
  obtain ⟨u, hcreate, hu, huw, hui⟩ := exists_rangeCreate hmin hle hmax hpart
  exact ⟨u, hu, huw, hui, hcreate⟩

theorem intLong_entryOf (he : InInt e) : intLong.entryOf e =
    some ((VPIntRange.create (Width.int.wrap e.getLow) (Width.int.wrap e.getHigh)).map .simple) := by
  obtain ⟨hmin, hmax⟩ := he
  rw [MergeKind.entryOf]
  exact if_neg (by omega)

/-- The merge with a last result below the maximum is as good as one of 32-bit
constraints. -/
theorem intMerge1Long_spans (hs : s.Valid) (hsw : s.width = .int) (hew : e.width = .long)
    (hin : InInt e) (hlow : s.getLow ≤ e.getLow) (hle : e.getLow ≤ e.getHigh)
    (htouch : e.getLow ≤ s.getHigh + 1) (hhigh : s.getHigh < Width.int.maxSigned) :
    VPSimple.Spans .int s e.interval (s.merge e) := by
  obtain ⟨hmin, hmax⟩ := hin
  have hsmin := hs.min_le
  have hsle := hs.low_le_high
  rw [hsw] at hsmin
  have hplus : Width.int.wrap (s.getHigh + 1) = s.getHigh + 1 :=
    Width.wrap_of_mem (by omega) (by omega)
  have hlowVal : (if e.getLow < s.getLow then e.getLow else s.getLow) = s.getLow :=
    if_neg (by omega)
  have hhighVal : (if e.getHigh ≤ s.getHigh then s.getHigh else e.getHigh) =
      max s.getHigh e.getHigh := by
    rw [max_def]
    split_ifs <;> omega
  rw [merge_int_long hsw hew, VPSimple.intMerge1Long, if_neg (by omega)]
  simp only [hlowVal, hhighVal, hplus, if_pos htouch]
  rw [Width.wrap_of_mem hsmin (by omega), Width.wrap_of_mem (by omega) (by omega), VPSimple.Spans]
  by_cases hfull : s.getLow = Width.int.minSigned ∧ e.getHigh = Width.int.maxSigned
  · exact Or.inr ⟨if_pos hfull, hfull.1, by rw [VPSimple.interval_high]; omega⟩
  · obtain ⟨u, hcreate, hu, huw, hui⟩ := @exists_rangeCreate .int s.getLow (max s.getHigh e.getHigh)
      hsmin (by omega) (by omega) (by omega)
    have hcreate' : VPIntRange.create s.getLow (max s.getHigh e.getHigh) = some u := hcreate
    exact Or.inl ⟨u, by rw [if_neg hfull, hcreate']; rfl, hu, huw, hui⟩

/-- A 64-bit element within the 32-bit type is absorbed, unless it covers the type
and comes first, or the last result ends at the maximum. -/
theorem intLong_take_inside (hacc : AllValid .int acc) (he : e.Valid) (hew : e.width = .long)
    (hin : InInt e) (haccepts : Accepts (acc.map VPSimple.interval) e.interval)
    (hpart : ¬ (e.getLow = Width.int.minSigned ∧ e.getHigh = Width.int.maxSigned) ∨ acc ≠ [])
    (hhigh : ∀ s ∈ acc, s.getHigh < Width.int.maxSigned) :
    Absorbed .int acc e.interval (intLong.take (ofAcc acc) e) := by
  have hle := he.low_le_high
  rw [intLong_take_long hew, intLong_entryOf hin]
  refine @MergeKind.put_absorbed intLong _ e.interval _ _ hacc hle hin.2 haccepts (fun hgap => ?_)
    fun s hs hsv hsw hlow htouch =>
      intMerge1Long_spans hsv hsw hew hin hlow hle htouch (hhigh s (List.mem_of_mem_head? hs))
  have hpart' : ¬ (e.getLow = Width.int.minSigned ∧ e.getHigh = Width.int.maxSigned) := by
    rcases hpart with hpart | hne
    · exact hpart
    · -- something lies below the element, so that it does not begin at the minimum
      obtain ⟨s, acc', rfl⟩ := List.exists_cons_of_ne_nil hne
      obtain ⟨hs, hsw⟩ := hacc s (by simp)
      have hsmin := hs.min_le
      have hsle := hs.low_le_high
      have hlt : s.getHigh + 1 < e.getLow := hgap s (by simp)
      rw [hsw] at hsmin
      omega
  obtain ⟨u, hu, huw, hui, hcreate⟩ := exists_intVersion hle hin hpart'
  exact ⟨u, by rw [hcreate]; rfl, hu, huw, hui⟩

/-- After the maximum of the type, an element within the type is put into a list
together with the last result. -/
theorem intLong_take_nested (hs : s.Valid) (hsw : s.width = .int)
    (hmax : s.getHigh = Width.int.maxSigned) (he : e.Valid) (hew : e.width = .long) (hin : InInt e)
    (hlow : s.getLow ≤ e.getLow) :
    ∃ u : VPSimple, u.getLow = e.getLow ∧
      intLong.take (ofAcc (s :: acc)) e =
        .done (some ⟨some (.list [s, u]) :: acc.map fun s => some (.simple s), []⟩) := by
  obtain ⟨hmin', hmax'⟩ := hin
  have hle := he.low_le_high
  have hsmin := hs.min_le
  rw [hsw] at hsmin
  -- the last result does not begin at the minimum as well
  have hsgt : Width.int.minSigned < s.getLow := by
    by_contra hge
    have := hs.partly (by rw [hsw]; omega) (by rw [hsw]; exact hmax)
    rw [hsw] at this
    cases this
  obtain ⟨u, hu, huw, hui, hcreate⟩ := exists_intVersion hle ⟨hmin', hmax'⟩ (by omega)
  have hmerge : s.merge e = .done (some (.list [s, u])) := by
    rw [merge_int_long hsw hew, VPSimple.intMerge1Long, if_neg (by omega)]
    have hwrap : ¬ e.getLow ≤ Width.int.wrap (s.getHigh + 1) := by
      rw [hmax, Width.wrap_succ_maxSigned]
      omega
    simp only [if_neg hwrap, if_neg (by omega : ¬ e.getLow < s.getLow), hcreate]
    rfl
  have hcast : (Entry.simple s).asConstraint intLong.curWidth = some s :=
    Entry.asConstraint_of_width hsw
  refine ⟨u, congrArg Interval.low hui, ?_⟩
  rw [intLong_take_long hew, MergeKind.put]
  simp only [ofAcc, List.map_cons, hcast, hmerge]
  exact if_pos (Or.inl hmax)

/-- The list that comes out of a nested last result is not well formed, and any
further element dereferences a `NULL` pointer. -/
theorem not_wellMerged_nested {u : VPSimple} {es : List VPSimple} (hle : u.getLow ≤ s.getHigh) :
    (intLong.takeAll es ⟨some (.list [s, u]) :: acc.map fun s => some (.simple s), []⟩).bind
        VPMergedConstraints.finishMerge = .nullDereference ∨
      ∃ c, (intLong.takeAll es ⟨some (.list [s, u]) :: acc.map fun s => some (.simple s), []⟩).bind
          VPMergedConstraints.finishMerge = .done (some c) ∧ ∀ w, ¬ WellMerged w c := by
  cases es with
  | cons e es =>
    refine Or.inl ?_
    have htake : intLong.take ⟨some (.list [s, u]) :: acc.map fun s => some (.simple s), []⟩ e =
        .nullDereference := by
      rw [MergeKind.take]
      split_ifs <;> rfl
    rw [MergeKind.takeAll, htake]
    rfl
  | nil =>
    refine Or.inr ?_
    have hlist : (⟨some (.list [s, u]) :: acc.map fun s => some (.simple s), []⟩ :
        ResultList).toList = (acc.reverse.map Entry.simple ++ [Entry.list [s, u]]).map some := by
      simp [ResultList.toList]
    have hnot : ∀ {es : List Entry} {w : Width}, Entry.list [s, u] ∈ es → ¬ Valid w (.merged es) := by
      intro es w hmem hvalid
      obtain ⟨l, rfl, -⟩ := hvalid.exists_list
      obtain ⟨t, -, ht⟩ := List.mem_map.1 hmem
      cases ht
    cases hacc : acc with
    | nil =>
      refine ⟨.merged [.simple s, .simple u], rfl, fun w h => ?_⟩
      have hl := @ListOf.of_valid w [s, u] h.valid
      have hlt : s.getHigh < u.getLow := (List.pairwise_cons.1 hl.ordered.apart).1 u.interval (by simp)
      omega
    | cons t acc' =>
      refine ⟨.merged (acc.reverse.map Entry.simple ++ [Entry.list [s, u]]), ?_, fun w h =>
        hnot (by simp) h.valid⟩
      rw [← hacc]
      show VPMergedConstraints.finishMerge (some _) = _
      rw [VPMergedConstraints.finishMerge, hlist, hacc]
      obtain ⟨a, b, l, hab⟩ : ∃ a b l, (t :: acc').reverse.map Entry.simple ++ [Entry.list [s, u]] =
          a :: b :: l := by
        cases hr : (t :: acc').reverse with
        | nil => simp at hr
        | cons a l =>
          cases l with
          | nil => exact ⟨_, _, _, rfl⟩
          | cons b l => exact ⟨_, _, _, rfl⟩
      rw [hab]
      show (VPMergedConstraints.create ((a :: b :: l).map some)).bind _ = _
      simp only [VPMergedConstraints.create, nonNull_map_some, Outcome.bind_done]

/-- The loop comes to an element `o` of 64 bits within the 32-bit type that it
cannot handle: it covers the type and comes first, or the elements before it
reach the maximum of the type without covering it. -/
def Blocked (acc es : List VPSimple) : Prop :=
  ∃ before o after, es = before ++ o :: after ∧ o.width = .long ∧ InInt o ∧
    (∀ e ∈ before, e.width = .long → InInt e) ∧
    ((acc = [] ∧ before = [] ∧ after ≠ [] ∧ o.getLow = Width.int.minSigned ∧
        o.getHigh = Width.int.maxSigned) ∨
      (Width.int.maxSigned ∈ valuesOf ((acc ++ before).map VPSimple.interval) ∧
        ∃ x, Width.int.minSigned ≤ x ∧ x ≤ Width.int.maxSigned ∧
          x ∉ valuesOf ((acc ++ before).map VPSimple.interval)))

/-- The end of a merge that went wrong. -/
def GoesWrong (o : Outcome (Option ResultList)) : Prop :=
  o.bind VPMergedConstraints.finishMerge = .nullDereference ∨
    ∃ c, o.bind VPMergedConstraints.finishMerge = .done (some c) ∧ ∀ w, ¬ WellMerged w c

/-- Absorbing an element that is no blocking one leaves the question to the rest. -/
theorem blocked_cons {acc' es : List VPSimple} (hne : acc' ≠ [])
    (hvals : ∀ x, x ∈ valuesOf (acc'.map VPSimple.interval) ↔
      x ∈ valuesOf (acc.map VPSimple.interval) ∨ x ∈ e.interval.values)
    (hin : e.width = .long → InInt e)
    (hfirst : e.width = .long → (acc ≠ [] ∨
        ¬ (e.getLow = Width.int.minSigned ∧ e.getHigh = Width.int.maxSigned)) ∧
      Width.int.maxSigned ∉ valuesOf (acc.map VPSimple.interval)) :
    Blocked acc (e :: es) ↔ Blocked acc' es := by
  have hcover : ∀ before x, x ∈ valuesOf ((acc' ++ before).map VPSimple.interval) ↔
      x ∈ valuesOf ((acc ++ e :: before).map VPSimple.interval) := by
    intro before x
    rw [List.map_append, mem_valuesOf_append, hvals, List.map_append, mem_valuesOf_append,
      List.map_cons, mem_valuesOf_cons, or_assoc]
  constructor
  · rintro ⟨before, o, after, heq, how, hoin, hbefore, hblock⟩
    cases before with
    | nil =>
      obtain ⟨rfl, rfl⟩ := List.cons.inj heq
      obtain ⟨hpart, hmax⟩ := hfirst how
      rcases hblock with ⟨hacc, -, -, hwhole⟩ | ⟨hmem, -⟩
      · rcases hpart with hpart | hpart
        · exact absurd hacc hpart
        · exact absurd hwhole hpart
      · rw [List.append_nil] at hmem
        exact absurd hmem hmax
    | cons f before =>
      obtain ⟨rfl, rfl⟩ := List.cons.inj heq
      refine ⟨before, o, after, rfl, how, hoin, fun g hg => hbefore g (List.mem_cons_of_mem _ hg), ?_⟩
      rcases hblock with ⟨-, h, -⟩ | ⟨hmem, x, hx, hx', hnot⟩
      · cases h
      · exact Or.inr ⟨(hcover _ _).2 hmem, x, hx, hx', fun h => hnot ((hcover _ _).1 h)⟩
  · rintro ⟨before, o, after, rfl, how, hoin, hbefore, hblock⟩
    refine ⟨e :: before, o, after, rfl, how, hoin, ?_, ?_⟩
    · intro f hf
      rcases List.mem_cons.1 hf with rfl | hf
      · exact hin
      · exact hbefore f hf
    · rcases hblock with ⟨hacc, -⟩ | ⟨hmem, x, hx, hx', hnot⟩
      · exact absurd hacc hne
      · exact Or.inr ⟨(hcover _ _).1 hmem, x, hx, hx', fun h => hnot ((hcover _ _).2 h)⟩

/-- Nothing blocks the loop any more once the type is covered. -/
theorem not_blocked_of_whole {es : List VPSimple} {l : List Interval}
    (hwhole : (⟨Width.int.minSigned, Width.int.maxSigned⟩ : Interval) ∈ l)
    (hvals : ∀ x, x ∈ valuesOf l ↔
      x ∈ valuesOf (acc.map VPSimple.interval) ∨ x ∈ e.interval.values)
    (hfirst : e.width = .long → (acc ≠ [] ∨
        ¬ (e.getLow = Width.int.minSigned ∧ e.getHigh = Width.int.maxSigned)) ∧
      Width.int.maxSigned ∉ valuesOf (acc.map VPSimple.interval)) :
    ¬ Blocked acc (e :: es) := by
  rintro ⟨before, o, after, heq, how, hoin, hbefore, hblock⟩
  cases before with
  | nil =>
    obtain ⟨rfl, rfl⟩ := List.cons.inj heq
    obtain ⟨hpart, hmax⟩ := hfirst how
    rcases hblock with ⟨hacc, -, -, hall⟩ | ⟨hmem, -⟩
    · rcases hpart with hpart | hpart
      · exact absurd hacc hpart
      · exact absurd hall hpart
    · rw [List.append_nil] at hmem
      exact absurd hmem hmax
  | cons f before =>
    obtain ⟨rfl, rfl⟩ := List.cons.inj heq
    rcases hblock with ⟨-, h, -⟩ | ⟨-, x, hx, hx', hnot⟩
    · cases h
    · apply hnot
      have := (hvals x).1 (mem_valuesOf_of_whole hwhole hx hx')
      rw [List.map_append, mem_valuesOf_append, List.map_cons, mem_valuesOf_cons]
      tauto

/-- A good result whose last range ends at the maximum does not cover the type. -/
theorem exists_uncovered (hacc : AllValid .int (s :: acc))
    (hsep : Separated ((s :: acc).map VPSimple.interval).reverse)
    (hmax : s.getHigh = Width.int.maxSigned) :
    ∃ x, Width.int.minSigned ≤ x ∧ x ≤ Width.int.maxSigned ∧
      x ∉ valuesOf ((s :: acc).map VPSimple.interval) := by
  obtain ⟨hs, hsw⟩ := hacc s (by simp)
  have hmin := hs.min_le
  have hle := hs.low_le_high
  rw [hsw] at hmin
  have hgt : Width.int.minSigned < s.getLow := by
    by_contra hge
    have := hs.partly (by rw [hsw]; omega) (by rw [hsw]; exact hmax)
    rw [hsw] at this
    cases this
  refine ⟨s.getLow - 1, by omega, by omega, ?_⟩
  rintro ⟨i, hi, hx⟩
  have hgap := List.pairwise_cons.1 (List.pairwise_reverse.1 hsep.gap)
  rcases List.mem_cons.1 hi with rfl | hi
  · have := hx.1
    simp only [VPSimple.interval_low] at this
    omega
  · have hlt : i.high + 1 < s.getLow := hgap.1 i hi
    have := hx.2
    omega

/-- All of a good result lies at or below its last range. -/
theorem high_lt_of_last (hsep : Separated ((s :: acc).map VPSimple.interval).reverse) {t : VPSimple}
    (ht : t ∈ s :: acc) {m : ℤ} (hs : s.getHigh < m) : t.getHigh < m := by
  rcases List.mem_cons.1 ht with rfl | ht
  · exact hs
  · have hgap := (List.pairwise_cons.1 (List.pairwise_reverse.1 hsep.gap)).1 t.interval
      (List.mem_map_of_mem ht)
    have hle := hsep.nonempty s.interval (by simp)
    simp only [VPSimple.interval_low, VPSimple.interval_high] at hgap hle
    omega

/-- The loop for 64-bit elements: without a blocking element it absorbs all of
them or gives up, with one it goes wrong. -/
theorem intLong_takeAll {es : List VPSimple} :
    ∀ {acc : List VPSimple}, AllValid .int acc → Separated (acc.map VPSimple.interval).reverse →
      (∀ s ∈ acc, ∀ e ∈ es, s.getLow ≤ e.getLow) →
      (∀ e ∈ es, e.Valid ∧ (e.width = .int ∨ e.width = .long)) →
      es.Pairwise (fun a b => a.getLow ≤ b.getLow) →
      (acc = [] → ∃ e ∈ es, e.width = .int) →
      (¬ Blocked acc es →
        (∃ acc', intLong.takeAll es (ofAcc acc) = .done (some (ofAcc acc')) ∧ AllValid .int acc' ∧
          acc'.map VPSimple.interval =
            (es.map VPSimple.interval).foldl absorb (acc.map VPSimple.interval)) ∨
        intLong.takeAll es (ofAcc acc) = .done none) ∧
      (Blocked acc es → GoesWrong (intLong.takeAll es (ofAcc acc))) := by
  induction es with
  | nil =>
    intro acc hacc _ _ _ _ _
    refine ⟨fun _ => Or.inl ⟨acc, rfl, hacc, rfl⟩, ?_⟩
    rintro ⟨before, o, after, heq, -⟩
    simp at heq
  | cons e es ih =>
    intro acc hacc hsep hlow hes hsorted hint
    obtain ⟨he, hew⟩ := hes e (by simp)
    have hle := he.low_le_high
    have haccepts : Accepts (acc.map VPSimple.interval) e.interval := by
      refine ⟨hsep, fun j hj => ?_⟩
      obtain ⟨s, hs, rfl⟩ := List.mem_map.1 hj
      exact hlow s hs e (by simp)
    have hvals := fun x => @mem_valuesOf_absorb _ _ haccepts x
    -- an element that is absorbed leaves the rest of the elements to the rest of the loop
    have habsorbed : Absorbed .int acc e.interval (intLong.take (ofAcc acc) e) →
        (e.width = .long → InInt e) →
        (e.width = .long → (acc ≠ [] ∨
            ¬ (e.getLow = Width.int.minSigned ∧ e.getHigh = Width.int.maxSigned)) ∧
          Width.int.maxSigned ∉ valuesOf (acc.map VPSimple.interval)) →
        (¬ Blocked acc (e :: es) →
          (∃ acc', intLong.takeAll (e :: es) (ofAcc acc) = .done (some (ofAcc acc')) ∧
            AllValid .int acc' ∧ acc'.map VPSimple.interval =
              ((e :: es).map VPSimple.interval).foldl absorb (acc.map VPSimple.interval)) ∨
          intLong.takeAll (e :: es) (ofAcc acc) = .done none) ∧
        (Blocked acc (e :: es) → GoesWrong (intLong.takeAll (e :: es) (ofAcc acc))) := by
      rintro (⟨acc', htake, hacc', hmap⟩ | ⟨htake, hwhole⟩) hin hfirst
      · have hnext : Accepts (acc'.map VPSimple.interval) e.interval := by
          rw [hmap]
          exact absorb_accepts haccepts hle le_rfl
        have hlow' : ∀ s ∈ acc', ∀ f ∈ es, s.getLow ≤ f.getLow := by
          intro s hs f hf
          have h₁ : s.getLow ≤ e.getLow := hnext.low_le _ (List.mem_map_of_mem hs)
          exact h₁.trans ((List.pairwise_cons.1 hsorted).1 f hf)
        have hne : acc' ≠ [] := by
          rintro rfl
          have := (hvals e.getLow).2 (Or.inr ⟨le_rfl, hle⟩)
          rw [← hmap] at this
          simp at this
        have hstep : intLong.takeAll (e :: es) (ofAcc acc) = intLong.takeAll es (ofAcc acc') := by
          rw [MergeKind.takeAll, htake]
          rfl
        have hblocked := @blocked_cons acc e acc' es hne (fun x => by rw [hmap]; exact hvals x) hin
          hfirst
        obtain ⟨hgood, hbad⟩ := ih hacc' hnext.separated hlow' (fun f hf => hes f (by simp [hf]))
          (List.pairwise_cons.1 hsorted).2 fun h => absurd h hne
        rw [hblocked, hstep]
        refine ⟨fun h => ?_, hbad⟩
        rcases hgood h with ⟨acc'', hall, hacc'', hmap'⟩ | hall
        · exact Or.inl ⟨acc'', hall, hacc'', by rw [hmap', hmap, List.map_cons, List.foldl_cons]⟩
        · exact Or.inr hall
      · refine ⟨fun _ => Or.inr ?_, fun h => absurd h (not_blocked_of_whole hwhole hvals hfirst)⟩
        rw [MergeKind.takeAll, htake]
        rfl
    rcases hew with hew | hew
    · exact habsorbed (MergeKind.behaves_of_width he hew acc hacc haccepts)
        (fun h => by rw [hew] at h; cases h) (fun h => by rw [hew] at h; cases h)
    · by_cases hin : InInt e
      · by_cases hmax : ∃ s, acc.head? = some s ∧ s.getHigh = Width.int.maxSigned
        · -- the last result ends at the maximum
          obtain ⟨s, hhead, hsmax⟩ := hmax
          obtain ⟨acc', rfl⟩ : ∃ acc', acc = s :: acc' := by
            cases acc with
            | nil => cases hhead
            | cons t acc' => exact ⟨acc', by rw [Option.some.inj hhead]⟩
          obtain ⟨hs, hsw⟩ := hacc s (by simp)
          obtain ⟨u, hu, htake⟩ := @intLong_take_nested acc' e s hs hsw hsmax he hew hin
            (hlow s (by simp) e (by simp))
          have hblocked : Blocked (s :: acc') (e :: es) := by
            refine ⟨[], e, es, rfl, hew, hin, by simp, Or.inr ?_⟩
            rw [List.append_nil]
            refine ⟨⟨s.interval, by simp, ?_, hsmax.ge⟩, exists_uncovered hacc hsep hsmax⟩
            rw [← hsmax]
            exact hs.low_le_high
          refine ⟨fun h => absurd hblocked h, fun _ => ?_⟩
          rw [MergeKind.takeAll, htake]
          apply not_wellMerged_nested
          have := hin.2
          omega
        · have hhigh : ∀ s ∈ acc, s.getHigh < Width.int.maxSigned := by
            cases acc with
            | nil => simp
            | cons s acc =>
              have hsle := (hacc s (by simp)).1.le_max
              rw [(hacc s (by simp)).2] at hsle
              have hslt : s.getHigh < Width.int.maxSigned :=
                lt_of_le_of_ne hsle fun h => hmax ⟨s, rfl, h⟩
              exact fun t ht => high_lt_of_last hsep ht hslt
          have hnot : Width.int.maxSigned ∉ valuesOf (acc.map VPSimple.interval) := by
            rintro ⟨i, hi, hx⟩
            obtain ⟨t, ht, rfl⟩ := List.mem_map.1 hi
            have h₁ := hhigh t ht
            have h₂ := hx.2
            simp only [VPSimple.interval_high] at h₂
            omega
          by_cases hpart : acc ≠ [] ∨
              ¬ (e.getLow = Width.int.minSigned ∧ e.getHigh = Width.int.maxSigned)
          · exact habsorbed (intLong_take_inside hacc he hew hin haccepts hpart.symm hhigh)
              (fun _ => hin) fun _ => ⟨hpart, hnot⟩
          · -- the whole 32-bit type comes first
            push Not at hpart
            obtain ⟨rfl, hwhole⟩ := hpart
            have hcreate : VPIntRange.create (Width.int.wrap e.getLow) (Width.int.wrap e.getHigh) =
                none := by
              rw [hwhole.1, hwhole.2]
              decide
            have htake : intLong.take (ofAcc []) e = .done (some ⟨[none], []⟩) := by
              rw [intLong_take_long hew, intLong_entryOf hin, hcreate]
              rfl
            cases es with
            | nil =>
              obtain ⟨f, hf, hfw⟩ := hint rfl
              rw [List.mem_singleton.1 hf, hew] at hfw
              cases hfw
            | cons f es =>
              refine ⟨fun h => absurd ⟨[], e, f :: es, rfl, hew, hin, by simp,
                Or.inl ⟨rfl, rfl, by simp, hwhole⟩⟩ h, fun _ => Or.inl ?_⟩
              have htake' : intLong.take ⟨[none], []⟩ f = .nullDereference := by
                rw [MergeKind.take]
                split_ifs <;> rfl
              rw [MergeKind.takeAll, htake]
              simp only [Outcome.bind_done]
              rw [MergeKind.takeAll, htake']
              rfl
      · refine ⟨fun _ => Or.inr ?_, ?_⟩
        · rw [MergeKind.takeAll, intLong_take_outside hacc hew hin]
          rfl
        · rintro ⟨before, o, after, heq, how, hoin, hbefore, -⟩
          cases before with
          | nil =>
            obtain ⟨rfl, rfl⟩ := List.cons.inj heq
            exact absurd hoin hin
          | cons f before =>
            obtain ⟨rfl, rfl⟩ := List.cons.inj heq
            exact absurd (hbefore e (by simp) hew) hin

end IntLong

/-! ## Constants and ranges -/

namespace VPConstraint

theorem subset_allowed_none (A : Set ℤ) : A ⊆ allowed none := fun _ _ => Set.mem_univ _

/-- A merge that gives up is sound. -/
theorem mergesSoundly_null {a b : VPConstraint} (h : a.merge b = .done none) : MergesSoundly a b :=
  ⟨none, h, subset_allowed_none _, by simp⟩

theorem mergesSoundly_some {a b c : VPConstraint} {w : Width} (h : a.merge b = .done (some c))
    (hsub : ∀ x, x ∈ a.values ∨ x ∈ b.values → x ∈ c.values) (hc : WellMerged w c) :
    MergesSoundly a b :=
  ⟨some c, h, fun x hx => hsub x hx, fun d hd => ⟨w, by rw [← Option.some.inj hd]; exact hc⟩⟩

/-- Two constants or ranges of one width. -/
theorem mergesSoundly_same {w : Width} {s t : VPSimple} (hs : s.Valid) (ht : t.Valid)
    (hsw : s.width = w) (htw : t.width = w) : MergesSoundly (.simple s) (.simple t) := by
  by_cases heq : s = t
  · subst heq
    refine mergesSoundly_some (c := .simple s) ?_ (fun x hx => by tauto) (wellMerged_simple hs hsw)
    rw [merge, VPSimple.merge, if_pos rfl]
    rfl
  · have hcall : (VPConstraint.simple s).merge (.simple t) =
        .done ((s.mergeSame t).map Entry.toConstraint) := by
      rw [merge, VPSimple.merge_eq_mergeSame (by rw [hsw, htw]) heq]
      rfl
    -- the operand with the smaller lower bound first
    have hordered : ∀ {a b : VPSimple}, a.Valid → b.Valid → a.width = w → b.width = w →
        a.getLow ≤ b.getLow → (∀ x, x ∈ (VPConstraint.simple s).values ∨
          x ∈ (VPConstraint.simple t).values → x ∈ a.values ∨ x ∈ b.values) →
        s.mergeSame t = a.mergeOrdered b → MergesSoundly (.simple s) (.simple t) := by
      intro a b ha hb haw hbw hlow hsub hsame
      have hmin := ha.min_le
      have hmax := hb.le_max
      have hale := ha.low_le_high
      have hble := hb.low_le_high
      rw [haw] at hmin
      rw [hbw] at hmax
      rw [hsame, VPSimple.mergeOrdered, haw] at hcall
      split_ifs at hcall with hin htouch hfull
      · refine mergesSoundly_some hcall (fun x hx => ?_) (wellMerged_simple ha haw)
        rcases hsub x hx with hx | hx
        · exact hx
        · rw [VPSimple.mem_values] at hx
          exact ⟨hlow.trans hx.1, hx.2.trans hin⟩
      · exact mergesSoundly_null hcall
      · obtain ⟨u, hcreate, hu, huw, hui⟩ := exists_rangeCreate hmin (by omega : a.getLow ≤ b.getHigh)
          hmax hfull
        have hul : u.getLow = a.getLow := congrArg Interval.low hui
        have huh : u.getHigh = b.getHigh := congrArg Interval.high hui
        rw [hcreate] at hcall
        refine mergesSoundly_some hcall (fun x hx => ?_) (wellMerged_simple hu huw)
        show u.getLow ≤ x ∧ x ≤ u.getHigh
        rw [hul, huh]
        rcases hsub x hx with hx | hx
        · rw [VPSimple.mem_values] at hx
          omega
        · rw [VPSimple.mem_values] at hx
          omega
      · have hplus : w.plusOne a.getHigh = a.getHigh + 1 := by
          cases w with
          | short => rfl
          | int => exact Width.wrap_of_mem (by omega) (by omega)
          | long => exact Width.wrap_of_mem (by omega) (by omega)
        rw [hplus] at htouch
        by_cases hshort : w = .short
        · rw [hshort] at hcall
          exact mergesSoundly_null hcall
        · have hlist : (VPConstraint.simple s).merge (.simple t) =
              .done (some (.merged ([a, b].map .simple))) := by
            cases w with
            | short => exact absurd rfl hshort
            | int => exact hcall
            | long => exact hcall
          have hsep : Separated ([a, b].map VPSimple.interval) := by
            refine ⟨by simp [hale, hble], ?_⟩
            simp only [List.map_cons, List.map_nil, List.pairwise_cons, List.mem_singleton, forall_eq,
              List.not_mem_nil, false_implies, implies_true, List.Pairwise.nil, and_true]
            show a.getHigh + 1 < b.getLow
            omega
          have hl : ListOf w [a, b] := listOf_of_separated (by
            intro u hu
            simp only [List.mem_cons, List.not_mem_nil, or_false] at hu
            rcases hu with rfl | rfl
            · exact ⟨ha, haw⟩
            · exact ⟨hb, hbw⟩) hsep le_rfl
          refine mergesSoundly_some hlist (fun x hx => ?_) (wellMerged_list hl hsep hshort)
          rw [values_merged]
          rcases hsub x hx with hx | hx
          · exact ⟨a.interval, by simp, hx⟩
          · exact ⟨b.interval, by simp, hx⟩
    by_cases hlt : t.getLow < s.getLow
    · exact hordered ht hs htw hsw hlt.le (fun x hx => hx.symm) (if_pos hlt)
    · exact hordered hs ht hsw htw (not_lt.1 hlt) (fun x hx => hx) (if_neg hlt)

/-- The condition for a 32-bit operand `s` and a 64-bit operand `t`: the increment
does not wrap, or wrapping does no harm. -/
def IntLongFine (s t : VPSimple) : Prop :=
  ¬ InInt t ∨ s.getHigh ≠ Width.int.maxSigned ∨ t.getLow = Width.int.minSigned ∨
    t.getHigh + 1 < s.getLow

instance (s t : VPSimple) : Decidable (IntLongFine s t) := inferInstanceAs (Decidable (_ ∨ _))

/-- The pair that the 32-bit `merge1` builds is well formed exactly when its two
ranges are apart. -/
theorem wellMerged_pair_iff {a b : VPSimple} (ha : a.Valid) (hb : b.Valid) (haw : a.width = .int)
    (hbw : b.width = .int) :
    (∃ w, WellMerged w (.merged [.simple a, .simple b])) ↔ a.getHigh + 1 < b.getLow := by
  have hgap : Separated ([a, b].map VPSimple.interval) ↔ a.getHigh + 1 < b.getLow := by
    constructor
    · intro h
      exact (List.pairwise_cons.1 h.gap).1 b.interval (by simp)
    · intro h
      refine ⟨by simp [ha.low_le_high, hb.low_le_high], ?_⟩
      simpa using h
  rw [← hgap]
  constructor
  · rintro ⟨w, h⟩
    exact h.separated [a, b] rfl
  · intro hsep
    have hl : ListOf .int [a, b] := listOf_of_separated (by
      intro u hu
      simp only [List.mem_cons, List.not_mem_nil, or_false] at hu
      rcases hu with rfl | rfl
      · exact ⟨ha, haw⟩
      · exact ⟨hb, hbw⟩) hsep le_rfl
    exact ⟨.int, wellMerged_list hl hsep (by decide)⟩

/-- What the 32-bit `merge1` gives for a 64-bit operand. -/
theorem intMerge1Long_iff {s t : VPSimple} (hs : s.Valid) (ht : t.Valid) (hsw : s.width = .int)
    {A : Set ℤ} (hA : ∀ x, x ∈ A ↔ x ∈ s.values ∨ x ∈ t.values) :
    (∃ r, (s.intMerge1Long t).bind (fun r => .done (r.map Entry.toConstraint)) = .done r ∧
        A ⊆ allowed r ∧ ∀ c, r = some c → ∃ w, WellMerged w c) ↔ IntLongFine s t := by
  have hsmin := hs.min_le
  have hsmax := hs.le_max
  have hsle := hs.low_le_high
  have htle := ht.low_le_high
  rw [hsw] at hsmin hsmax
  rw [IntLongFine]
  have hnull : ∀ {o : Outcome (Option Entry)}, o = .done none →
      ∃ r, o.bind (fun r => .done (r.map Entry.toConstraint)) = .done r ∧
        A ⊆ allowed r ∧ ∀ c, r = some c → ∃ w, WellMerged w c := by
    rintro _ rfl
    exact ⟨none, rfl, subset_allowed_none A, by simp⟩
  by_cases hin : InInt t
  · obtain ⟨hmin, hmax⟩ := hin
    rw [VPSimple.intMerge1Long, if_neg (by omega)]
    by_cases htouch : t.getLow ≤ Width.int.wrap (s.getHigh + 1)
    · -- the ranges are taken to meet
      have hfine : ¬ InInt t ∨ s.getHigh ≠ Width.int.maxSigned ∨ t.getLow = Width.int.minSigned ∨
          t.getHigh + 1 < s.getLow := by
        by_cases hhigh : s.getHigh = Width.int.maxSigned
        · rw [hhigh, Width.wrap_succ_maxSigned] at htouch
          exact Or.inr (Or.inr (Or.inl (by omega)))
        · exact Or.inr (Or.inl hhigh)
      refine iff_of_true ?_ hfine
      simp only [if_pos htouch]
      by_cases hfull : s.getLow = Width.int.minSigned ∧ t.getHigh = Width.int.maxSigned
      · exact hnull (if_pos hfull)
      · rw [if_neg hfull]
        have hlowVal : (if t.getLow < s.getLow then t.getLow else s.getLow) =
            min s.getLow t.getLow := by
          rw [min_def]
          split_ifs <;> omega
        have hhighVal : (if t.getHigh ≤ s.getHigh then s.getHigh else t.getHigh) =
            max s.getHigh t.getHigh := by
          rw [max_def]
          split_ifs <;> omega
        rw [hlowVal, hhighVal, Width.wrap_of_mem (by omega) (by omega),
          Width.wrap_of_mem (by omega) (by omega)]
        cases hcreate : VPIntRange.create (min s.getLow t.getLow) (max s.getHigh t.getHigh) with
        | none => exact hnull rfl
        | some u =>
          obtain ⟨huw, hul, huh⟩ := @rangeCreate_some .int _ _ _ hcreate
          have hu : u.Valid := by
            refine ⟨by rw [huw, hul]; omega, by rw [hul, huh]; omega, by rw [huw, huh]; omega, ?_⟩
            intro h₁ h₂
            have hne := @rangeCreate_eq_none .int (min s.getLow t.getLow) (max s.getHigh t.getHigh)
            rw [huw, hul] at h₁
            rw [huw, huh] at h₂
            have hnone := hne.2 ⟨h₁, h₂⟩
            rw [show rangeCreate .int (min s.getLow t.getLow) (max s.getHigh t.getHigh) = some u from
              hcreate] at hnone
            cases hnone
          refine ⟨some (.simple u), rfl, fun x hx => ?_, fun c hc => ?_⟩
          · show u.getLow ≤ x ∧ x ≤ u.getHigh
            rcases (hA x).1 hx with hx | hx
            · rw [VPSimple.mem_values] at hx
              omega
            · rw [VPSimple.mem_values] at hx
              omega
          · exact ⟨.int, by rw [← Option.some.inj hc]; exact wellMerged_simple hu huw⟩
    · -- the ranges are taken to be apart
      have htmin : Width.int.minSigned < t.getLow := by
        have := (Width.int.wrap_mem (s.getHigh + 1)).1
        omega
      obtain ⟨u, hu, huw, hui, hcreate⟩ := exists_intVersion htle ⟨hmin, hmax⟩ (by omega)
      have hul : u.getLow = t.getLow := congrArg Interval.low hui
      have huh : u.getHigh = t.getHigh := congrArg Interval.high hui
      simp only [if_neg htouch, hcreate]
      have hpair : ∀ {a b : VPSimple}, a.Valid → b.Valid → a.width = .int → b.width = .int →
          (∀ x, x ∈ A → x ∈ a.values ∨ x ∈ b.values) →
          ((∃ r, (VPSimple.createPair (some a) (some b)).bind
              (fun r => .done (r.map Entry.toConstraint)) = .done r ∧ A ⊆ allowed r ∧
            ∀ c, r = some c → ∃ w, WellMerged w c) ↔ a.getHigh + 1 < b.getLow) := by
        intro a b ha hb haw hbw hsub
        rw [← wellMerged_pair_iff ha hb haw hbw]
        constructor
        · rintro ⟨r, hr, -, hwell⟩
          exact hwell _ (Outcome.done.inj hr).symm
        · rintro hwell
          refine ⟨some (.merged [.simple a, .simple b]), rfl, fun x hx => ?_, ?_⟩
          · rcases hsub x hx with hx | hx
            · exact ⟨.simple a, by simp, hx⟩
            · exact ⟨.simple b, by simp, hx⟩
          · rintro _ ⟨⟩
            exact hwell
      have htvals : ∀ x, x ∈ t.values → x ∈ u.values := by
        intro x hx
        rw [VPSimple.mem_values] at hx ⊢
        omega
      by_cases hlt : t.getLow < s.getLow
      · rw [if_pos hlt, hpair hu hs huw hsw fun x hx => ?_]
        · rw [huh]
          constructor
          · exact fun h => Or.inr (Or.inr (Or.inr h))
          · rintro (h | h | h | h)
            · exact absurd ⟨hmin, hmax⟩ h
            · rw [Width.wrap_of_mem (by omega) (by omega)] at htouch
              omega
            · omega
            · exact h
        · rcases (hA x).1 hx with hx | hx
          · exact Or.inr hx
          · exact Or.inl (htvals x hx)
      · rw [if_neg hlt, hpair hs hu hsw huw fun x hx => ?_]
        · rw [hul]
          constructor
          · intro h
            exact Or.inr (Or.inl (by omega))
          · rintro (h | h | h | h)
            · exact absurd ⟨hmin, hmax⟩ h
            · rw [Width.wrap_of_mem (by omega) (by omega)] at htouch
              omega
            · omega
            · omega
        · rcases (hA x).1 hx with hx | hx
          · exact Or.inl hx
          · exact Or.inr (htvals x hx)
  · refine iff_of_true (hnull ?_) (Or.inl hin)
    rw [VPSimple.intMerge1Long, if_pos]
    rw [InInt] at hin
    omega

/-- A 32-bit and a 64-bit operand, in both orders. -/
theorem mergesSoundly_intLong_iff {s t : VPSimple} (hs : s.Valid) (ht : t.Valid)
    (hsw : s.width = .int) (htw : t.width = .long) :
    (MergesSoundly (.simple s) (.simple t) ↔ IntLongFine s t) ∧
      (MergesSoundly (.simple t) (.simple s) ↔ IntLongFine s t) := by
  have hts : t.merge s = s.intMerge1Long t := by
    have hne : t ≠ s := by
      rintro rfl
      rw [htw] at hsw
      cases hsw
    rw [VPSimple.merge, if_neg hne, hsw, htw, if_pos (by decide), VPSimple.merge1, hsw, htw]
  constructor
  · rw [MergesSoundly, merge, merge_int_long hsw htw]
    exact intMerge1Long_iff hs ht hsw fun x => Iff.rfl
  · rw [MergesSoundly, merge, hts]
    exact intMerge1Long_iff hs ht hsw fun x => Or.comm

end VPConstraint

end OMR.Compiler
