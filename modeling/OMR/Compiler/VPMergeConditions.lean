import OMR.Compiler.VPMergeSound
import OMR.Compiler.VPMixedIntersect

/-!
# Exactly when a merge is an upper bound

The list merges for each pair of widths, and from them the condition under which
`merge` is an upper bound for two constraints of any shape.
-/

namespace OMR.Compiler

open OMR.Lib

namespace VPConstraint

/-- An outcome that is an upper bound of `A`. -/
def SoundFor (A : Set ℤ) (o : Outcome (Option VPConstraint)) : Prop :=
  ∃ r, o = .done r ∧ A ⊆ allowed r ∧ ∀ c, r = some c → ∃ w, WellMerged w c

theorem soundFor_null (A : Set ℤ) : SoundFor A (.done none) :=
  ⟨none, rfl, subset_allowed_none A, by simp⟩

theorem soundFor_some {A : Set ℤ} {c : VPConstraint} (h : A ⊆ c.values) :
    SoundFor A (.done (some c)) ↔ ∃ w, WellMerged w c := by
  constructor
  · rintro ⟨r, hr, -, hwell⟩
    exact hwell c (Outcome.done.inj hr).symm
  · intro hwell
    refine ⟨some c, rfl, h, fun d hd => ?_⟩
    rwa [← Option.some.inj hd]

/-- A separated list as a result. It is a list only if its values have a gap, and
then it must not be a 16-bit one. -/
theorem wellMerged_ofList_iff {w : Width} {l : List VPSimple} (hl : AllValid w l) (hne : l ≠ [])
    (hsep : Separated (l.map VPSimple.interval)) :
    (∃ v, WellMerged v (ofList l)) ↔
      (w = .short → (valuesOf (l.map VPSimple.interval)).OrdConnected) := by
  match l with
  | [] => exact absurd rfl hne
  | [s] =>
    obtain ⟨hs, hw⟩ := hl s (by simp)
    refine iff_of_true ⟨w, wellMerged_simple hs hw⟩ fun _ => ?_
    have hvalues : valuesOf ([s].map VPSimple.interval) = Set.Icc s.getLow s.getHigh := by
      ext x
      simp
    rw [hvalues]
    exact Set.ordConnected_Icc
  | s :: t :: l =>
    have hlist : ListOf w (s :: t :: l) := listOf_of_separated hl hsep (by simp)
    constructor
    · rintro ⟨v, hv⟩ rfl
      exact absurd hv (not_wellMerged_shortList hlist v)
    · intro h
      refine ⟨w, wellMerged_list hlist hsep fun hshort => ?_⟩
      exact hsep.not_ordConnected (by simp) (h hshort)

/-- The kind of loop that a list of width `w` runs for elements of width `v`. -/
def loopFor : Width → Width → Option MergeKind
  | .short, .short => some ⟨.short, .short, true⟩
  | .int, .int => some ⟨.int, .int, true⟩
  | .int, .long => some intLong
  | .long, .long => some ⟨.long, .long, false⟩
  | .long, .int => some ⟨.long, .int, false⟩
  | _, _ => none

/-- The merge by the given loop; without one the list gives up. -/
def runLoop (k : Option MergeKind) (constraints : List Entry) (otherCur : VPSimple)
    (otherNext : List Entry) : Outcome (Option VPConstraint) :=
  match k with
  | some k => VPMergedConstraints.mergeFrom k constraints otherCur otherNext
  | none => .done none

/-- The constants and ranges of a constraint. -/
def ranges : VPConstraint → List VPSimple
  | simple s => [s]
  | merged es => es.flatMap fun
    | .simple s => [s]
    | .list l => l

@[simp] theorem ranges_merged (l : List VPSimple) : (merged (l.map .simple)).ranges = l := by
  rw [ranges, List.flatMap_map]
  simp

/-- The width of a constraint. -/
def type : VPConstraint → Width
  | simple s => s.width
  | merged es => mergedType es

theorem Valid.type_eq {w : Width} {c : VPConstraint} (h : Valid w c) : c.type = w := by
  cases h with
  | simple _ hw => exact hw
  | merged hl => exact mergedType_map hl

theorem Valid.values_eq {w : Width} {c : VPConstraint} (h : Valid w c) :
    c.values = valuesOf (c.ranges.map VPSimple.interval) := by
  cases h with
  | simple hs hw =>
    ext x
    simp [values, ranges, VPSimple.values]
  | merged hl => rw [ranges_merged, values_merged]

theorem Valid.allValid_ranges {w : Width} {c : VPConstraint} (h : Valid w c) :
    AllValid w c.ranges := by
  cases h with
  | simple hs hw =>
    intro s hs'
    rw [List.mem_singleton.1 hs']
    exact ⟨hs, hw⟩
  | merged hl =>
    rw [ranges_merged]
    exact fun s hs => ⟨hl.valid s hs, hl.width s hs⟩

theorem Valid.ordered_ranges {w : Width} {c : VPConstraint} (h : Valid w c) :
    Ordered (c.ranges.map VPSimple.interval) := by
  cases h with
  | simple hs hw => exact Ordered.singleton hs.low_le_high
  | merged hl =>
    rw [ranges_merged]
    exact hl.ordered

section Loops

variable {v : Width} {es fs : List Entry} {o : VPSimple}

theorem shortMerge_eq (ho : o.width = v) :
    VPMergedConstraints.shortMerge es (.simple o) fs = runLoop (loopFor .short v) es o fs := by
  cases v <;> simp [VPMergedConstraints.shortMerge, Entry.asConstraint, ho, loopFor, runLoop]

theorem intMerge_eq (ho : o.width = v) :
    VPMergedConstraints.intMerge es (.simple o) fs = runLoop (loopFor .int v) es o fs := by
  cases v <;> simp [VPMergedConstraints.intMerge, Entry.asConstraint, ho, loopFor, runLoop, intLong]

theorem longMerge_eq (ho : o.width = v) :
    VPMergedConstraints.longMerge es (.simple o) fs = runLoop (loopFor .long v) es o fs := by
  cases v <;> simp [VPMergedConstraints.longMerge, Entry.asConstraint, ho, loopFor, runLoop]

end Loops

/-- Which loop `merge1` of a list runs, and on which elements. -/
theorem merge1_eq_runLoop {w v : Width} {l : List VPSimple} {b : VPConstraint} (hl : ListOf w l)
    (hb : Valid v b) : ∃ o rest, b.ranges = o :: rest ∧
      VPMergedConstraints.merge1 (l.map .simple) b =
        runLoop (loopFor w v) (l.map .simple) o (rest.map .simple) := by
  have htype := mergedType_map hl
  cases hb with
  | @simple s hs hw =>
    refine ⟨s, [], rfl, ?_⟩
    simp only [VPMergedConstraints.merge1, htype]
    cases w with
    | short => exact shortMerge_eq hw
    | int => exact intMerge_eq hw
    | long => exact longMerge_eq hw
  | @merged m hm =>
    obtain ⟨o, rest, rfl⟩ := List.exists_cons_of_length_pos (by have := hm.two_le; omega : 0 < m.length)
    have ho := hm.width o (by simp)
    refine ⟨o, rest, ranges_merged _, ?_⟩
    simp only [List.map_cons, VPMergedConstraints.merge1, htype]
    cases w with
    | short => exact shortMerge_eq ho
    | int => exact intMerge_eq ho
    | long => exact longMerge_eq ho

/-- The condition for a list `l` of width `w` and ranges `m` of width `v`. Two
16-bit operands must leave no gap, since a 16-bit list does not know its greatest
value; a 32-bit list must not be blocked by a 64-bit element. -/
def ListFine (w v : Width) (l m : List VPSimple) : Prop :=
  match w, v with
  | .short, .short =>
    (valuesOf (l.map VPSimple.interval) ∪ valuesOf (m.map VPSimple.interval)).OrdConnected
  | .int, .long => ¬ Blocked [] (inOrder l m)
  | _, _ => True

/-- The loops all of whose elements behave. -/
theorem mergeFrom_soundFor_iff {k : MergeKind} {l rest : List VPSimple} {o : VPSimple}
    (hl : ListOf k.curWidth l) (hwidth : ∀ s ∈ o :: rest, s.width = k.otherWidth)
    (hordered : Ordered ((o :: rest).map VPSimple.interval))
    (hbehaves : ∀ s ∈ o :: rest, k.Behaves s)
    (hwithin : ∀ x ∈ valuesOf ((o :: rest).map VPSimple.interval),
      k.curWidth.minSigned ≤ x ∧ x ≤ k.curWidth.maxSigned) :
    SoundFor (valuesOf (l.map VPSimple.interval) ∪ valuesOf ((o :: rest).map VPSimple.interval))
        (VPMergedConstraints.mergeFrom k (l.map .simple) o (rest.map .simple)) ↔
      (k.curWidth = .short → (valuesOf (l.map VPSimple.interval) ∪
        valuesOf ((o :: rest).map VPSimple.interval)).OrdConnected) := by
  rcases mergeFrom_absorbs hl hwidth hordered hbehaves with
    ⟨l', hmerge, hl', hne, hsep, hvals⟩ | ⟨hmerge, hcover⟩
  · have hunion : valuesOf (l.map VPSimple.interval) ∪
        valuesOf ((o :: rest).map VPSimple.interval) = valuesOf (l'.map VPSimple.interval) := by
      ext x
      exact (hvals x).symm
    rw [hmerge, hunion, soundFor_some (by rw [values_ofList]), wellMerged_ofList_iff hl' hne hsep]
  · -- nothing is known because the operands cover the type
    rw [hmerge]
    refine iff_of_true (soundFor_null _) fun _ => ?_
    have hunion : valuesOf (l.map VPSimple.interval) ∪
        valuesOf ((o :: rest).map VPSimple.interval) =
          Set.Icc k.curWidth.minSigned k.curWidth.maxSigned := by
      ext x
      constructor
      · rintro (⟨i, hi, hx⟩ | hx)
        · obtain ⟨s, hs, rfl⟩ := List.mem_map.1 hi
          have hmin := (hl.valid s hs).min_le
          have hmax := (hl.valid s hs).le_max
          rw [hl.width s hs] at hmin hmax
          exact ⟨hmin.trans hx.1, hx.2.trans hmax⟩
        · exact hwithin x hx
      · rintro ⟨hmin, hmax⟩
        exact hcover x hmin hmax
    rw [hunion]
    exact Set.ordConnected_Icc

/-- A 32-bit list and 64-bit elements. -/
theorem intLong_soundFor_iff {l rest : List VPSimple} {o : VPSimple} (hl : ListOf .int l)
    (hm : AllValid .long (o :: rest)) (hordered : Ordered ((o :: rest).map VPSimple.interval)) :
    SoundFor (valuesOf (l.map VPSimple.interval) ∪ valuesOf ((o :: rest).map VPSimple.interval))
        (VPMergedConstraints.mergeFrom intLong (l.map .simple) o (rest.map .simple)) ↔
      ¬ Blocked [] (inOrder l (o :: rest)) := by
  have hsorted := pairwise_inOrder hl.ordered hordered
  have hvalid : ∀ e ∈ inOrder l (o :: rest), e.Valid ∧ (e.width = .int ∨ e.width = .long) := by
    intro e he
    rcases mem_inOrder.1 he with he | he
    · exact ⟨hl.valid e he, Or.inl (hl.width e he)⟩
    · exact ⟨(hm e he).1, Or.inr (hm e he).2⟩
  have hint : ([] : List VPSimple) = [] → ∃ e ∈ inOrder l (o :: rest), e.width = .int := by
    obtain ⟨s, l', rfl⟩ := List.exists_cons_of_length_pos (by have := hl.two_le; omega : 0 < l.length)
    exact fun _ => ⟨s, mem_inOrder.2 (Or.inl (by simp)), hl.width s (by simp)⟩
  obtain ⟨hgood, hbad⟩ := @intLong_takeAll _ [] (by simp [AllValid]) ⟨by simp, by simp⟩ (by simp)
    hvalid hsorted hint
  rw [@mergeFrom_eq_takeAll intLong _ _ _ hl fun s hs => (hm s hs).2]
  by_cases hblocked : Blocked [] (inOrder l (o :: rest))
  · refine iff_of_false ?_ (not_not.2 hblocked)
    rintro ⟨r, hr, -, hwell⟩
    rcases hbad hblocked with hnull | ⟨c, hc, hnot⟩
    · rw [hnull] at hr
      cases hr
    · rw [hc] at hr
      obtain ⟨w, hw⟩ := hwell c (Outcome.done.inj hr).symm
      exact hnot w hw
  · refine iff_of_true ?_ hblocked
    rcases hgood hblocked with ⟨acc, htake, hacc, hmap⟩ | htake
    · obtain ⟨hsep, hvals⟩ := @foldl_absorb ((inOrder l (o :: rest)).map VPSimple.interval) []
        ⟨by simp, by simp⟩ (by simp)
        (fun i hi => by
          obtain ⟨e, he, rfl⟩ := List.mem_map.1 hi
          exact (hvalid e he).1.low_le_high)
        (List.pairwise_map.2 hsorted)
      rw [List.map_nil] at hmap
      rw [← hmap] at hsep hvals
      have hvals' : ∀ x, x ∈ valuesOf (acc.reverse.map VPSimple.interval) ↔
          x ∈ valuesOf (l.map VPSimple.interval) ∨
            x ∈ valuesOf ((o :: rest).map VPSimple.interval) := by
        intro x
        rw [List.map_reverse, mem_valuesOf_reverse, hvals, mem_valuesOf_inOrder]
        simp
      have hne : acc ≠ [] := by
        rintro rfl
        have ho := (hm o (by simp)).1.low_le_high
        have := (hvals' o.getLow).2 (Or.inr ⟨o.interval, by simp, le_rfl, ho⟩)
        simp at this
      have hsep' : Separated (acc.reverse.map VPSimple.interval) := by rwa [List.map_reverse]
      have hacc' : AllValid .int acc.reverse := fun t ht => hacc t (List.mem_reverse.1 ht)
      rw [htake, Outcome.bind_done, finishMerge_ofAcc hne, soundFor_some]
      · rw [wellMerged_ofList_iff hacc' (by simpa using hne) hsep']
        intro h
        cases h
      · intro x hx
        rw [values_ofList]
        exact (hvals' x).2 hx
    · rw [htake]
      exact soundFor_null _

/-- The list merges are upper bounds exactly under their condition. -/
theorem merge1_soundFor_iff {w v : Width} {l : List VPSimple} {b : VPConstraint} (hl : ListOf w l)
    (hb : Valid v b) :
    SoundFor ((merged (l.map .simple)).values ∪ b.values)
        (VPMergedConstraints.merge1 (l.map .simple) b) ↔ ListFine w v l b.ranges := by
  obtain ⟨o, rest, hranges, hmerge⟩ := merge1_eq_runLoop hl hb
  have hm := hb.allValid_ranges
  have hordered := hb.ordered_ranges
  rw [values_merged, hb.values_eq, hmerge]
  rw [hranges] at hm hordered ⊢
  have hwithin : ∀ x ∈ valuesOf ((o :: rest).map VPSimple.interval),
      v.minSigned ≤ x ∧ x ≤ v.maxSigned := by
    rintro x ⟨i, hi, hx⟩
    obtain ⟨s, hs, rfl⟩ := List.mem_map.1 hi
    obtain ⟨hs', hsw⟩ := hm s hs
    have hmin := hs'.min_le
    have hmax := hs'.le_max
    rw [hsw] at hmin hmax
    exact ⟨hmin.trans hx.1, hx.2.trans hmax⟩
  -- a loop whose elements have the width of the list
  have hsame : ∀ {c : Bool}, w = v →
      (SoundFor (valuesOf (l.map VPSimple.interval) ∪ valuesOf ((o :: rest).map VPSimple.interval))
        (VPMergedConstraints.mergeFrom ⟨w, v, c⟩ (l.map .simple) o (rest.map .simple)) ↔
      (w = .short → (valuesOf (l.map VPSimple.interval) ∪
        valuesOf ((o :: rest).map VPSimple.interval)).OrdConnected)) := by
    rintro c rfl
    exact @mergeFrom_soundFor_iff ⟨w, w, c⟩ l rest o hl (fun s hs => (hm s hs).2) hordered
      (fun s hs => MergeKind.behaves_of_width (hm s hs).1 (hm s hs).2) hwithin
  cases w with
  | short =>
    cases v with
    | short => exact (hsame rfl).trans (by simp [ListFine])
    | int => exact iff_of_true (soundFor_null _) trivial
    | long => exact iff_of_true (soundFor_null _) trivial
  | int =>
    cases v with
    | short => exact iff_of_true (soundFor_null _) trivial
    | int => exact (hsame rfl).trans (by simp [ListFine])
    | long => exact intLong_soundFor_iff hl hm hordered
  | long =>
    cases v with
    | short => exact iff_of_true (soundFor_null _) trivial
    | int =>
      have hfine := @mergeFrom_soundFor_iff ⟨.long, .int, false⟩ l rest o hl
        (fun s hs => (hm s hs).2) hordered
        (fun s hs => MergeKind.behaves_longInt (hm s hs).1 (hm s hs).2) fun x hx => by
          have := hwithin x hx
          have hmin : Width.long.minSigned < Width.int.minSigned := by decide
          have hmax : Width.int.maxSigned < Width.long.maxSigned := by decide
          exact ⟨by show Width.long.minSigned ≤ x; omega, by show x ≤ Width.long.maxSigned; omega⟩
      exact hfine.trans (by simp [ListFine])
    | long => exact (hsame rfl).trans (by simp [ListFine])

/-- The condition under which `merge` is an upper bound. -/
def MergeFine (a b : VPConstraint) : Prop :=
  match a, b with
  | .simple s, .simple t =>
    match s.width, t.width with
    | .int, .long => IntLongFine s t
    | .long, .int => IntLongFine t s
    | _, _ => True
  | .simple s, .merged es => ListFine (mergedType es) s.width (merged es).ranges [s]
  | .merged es, b =>
    if .merged es = b then
      mergedType es ≠ .short ∧ Separated ((merged es).ranges.map VPSimple.interval)
    else ListFine (mergedType es) b.type (merged es).ranges b.ranges

/-- A list merged with itself is returned as it is. -/
theorem merge_self_sound_iff {w : Width} {l : List VPSimple} (hl : ListOf w l) :
    MergesSoundly (.merged (l.map .simple)) (.merged (l.map .simple)) ↔
      w ≠ .short ∧ Separated (l.map VPSimple.interval) := by
  have hmerge : (VPConstraint.merged (l.map .simple)).merge (.merged (l.map .simple)) =
      .done (some (.merged (l.map .simple))) := by
    rw [merge, if_pos rfl]
  show SoundFor _ _ ↔ _
  rw [hmerge, soundFor_some (by simp)]
  constructor
  · rintro ⟨v, hv⟩
    refine ⟨?_, hv.separated l rfl⟩
    rintro rfl
    exact not_wellMerged_shortList hl v hv
  · rintro ⟨hw, hsep⟩
    exact ⟨w, wellMerged_list hl hsep hw⟩

/-- Two constants or ranges of different widths of which one is a 16-bit one. -/
theorem merge_short_null {s t : VPSimple} (hne : s.width ≠ t.width)
    (hshort : s.width = .short ∨ t.width = .short) :
    (VPConstraint.simple s).merge (.simple t) = .done none := by
  have hst : s ≠ t := by
    rintro rfl
    exact hne rfl
  rw [merge, VPSimple.merge, if_neg hst, VPSimple.merge1, VPSimple.merge1]
  cases hs : s.width <;> cases ht : t.width <;> simp_all [Width.priority]

/-- Constraints of every shape and width: `merge` is defined, allows the values of
both operands and has true bounds exactly under the condition. -/
theorem mergesSoundly_iff {w v : Width} {a b : VPConstraint} (ha : Valid w a) (hb : Valid v b) :
    MergesSoundly a b ↔ MergeFine a b := by
  cases ha with
  | @simple s hs hsw =>
    cases hb with
    | @simple t ht htw =>
      by_cases heq : w = v
      · subst heq
        refine iff_of_true (mergesSoundly_same hs ht hsw htw) ?_
        rw [MergeFine, hsw, htw]
        cases w <;> trivial
      · rw [MergeFine, hsw, htw]
        cases w <;> cases v
        · exact absurd rfl heq
        · exact iff_of_true (mergesSoundly_null (merge_short_null (by simp [*]) (by simp [*]))) trivial
        · exact iff_of_true (mergesSoundly_null (merge_short_null (by simp [*]) (by simp [*]))) trivial
        · exact iff_of_true (mergesSoundly_null (merge_short_null (by simp [*]) (by simp [*]))) trivial
        · exact absurd rfl heq
        · exact (mergesSoundly_intLong_iff hs ht hsw htw).1
        · exact iff_of_true (mergesSoundly_null (merge_short_null (by simp [*]) (by simp [*]))) trivial
        · exact (mergesSoundly_intLong_iff ht hs htw hsw).2
        · exact absurd rfl heq
    | @merged l hl =>
      rw [MergeFine, mergedType_map hl, ranges_merged, hsw]
      have hlist := merge1_soundFor_iff hl (.simple hs hsw)
      rw [Set.union_comm] at hlist
      exact hlist
  | @merged l hl =>
    rw [MergeFine, mergedType_map hl, ranges_merged]
    split_ifs with hself
    · subst hself
      exact merge_self_sound_iff hl
    · rw [hb.type_eq, ← merge1_soundFor_iff hl hb, MergesSoundly, merge, if_neg hself]
      rfl

/-- The constraints that the source builds, as long as every merge on the way
meets its condition and every intersection is exact. -/
inductive Built : VPConstraint → Prop
  | create {w : Width} {low high : ℤ} {canOverflow : YesNoMaybe} {s : VPSimple}
      (hmin : w.minSigned ≤ low) (hle : low ≤ high) (hmax : high ≤ w.maxSigned)
      (h : rangeOrConst w low high canOverflow = some s) : Built (.simple s)
  | powerOfTwo {low high : ℤ} {canOverflow : YesNoMaybe} {s : VPSimple}
      (hmin : Width.long.minSigned ≤ low) (hle : low ≤ high) (hmax : high ≤ Width.long.maxSigned)
      (h : VPLongRange.create low high true canOverflow = some s) : Built (.simple s)
  | exclusion {w : Width} {v : ℤ} {c : VPConstraint} (hmin : w.minSigned ≤ v)
      (hmax : v ≤ w.maxSigned) (h : createExclusion w v = .done (some c)) : Built c
  | merge {a b c : VPConstraint} (ha : Built a) (hb : Built b) (hfine : MergeFine a b)
      (h : a.merge b = .done (some c)) : Built c
  | intersect {a b c : VPConstraint} (ha : Built a) (hb : Built b) (hexact : IntersectsExactly a b)
      (h : a.intersect (2 * (a.length + b.length)) b = .done (some c)) : Built c

/-- Whatever is built is valid. -/
theorem Built.valid {c : VPConstraint} (h : Built c) : ∃ w, Valid w c := by
  induction h with
  | @create w low high canOverflow s hmin hle hmax h =>
    obtain ⟨hw, hlow, hhigh, -⟩ := rangeOrConst_some h
    refine ⟨w, .simple ⟨by rwa [hw, hlow], by rwa [hlow, hhigh], by rwa [hw, hhigh], ?_⟩ hw⟩
    intro h₁ h₂
    rw [hw, hlow] at h₁
    rw [hw, hhigh] at h₂
    rw [rangeOrConst, if_pos ⟨h₁, h₂⟩] at h
    cases h
  | @powerOfTwo low high canOverflow s hmin hle hmax h =>
    refine ⟨.long, ?_⟩
    rw [VPLongRange.create, if_neg (by simp)] at h
    split_ifs at h with heq
    · obtain rfl := Option.some.inj h
      exact .simple ⟨hmin, le_rfl, hle.trans hmax, fun _ _ => rfl⟩ rfl
    · obtain rfl := Option.some.inj h
      exact .simple ⟨hmin, hle, hmax, fun _ _ => rfl⟩ rfl
  | exclusion hmin hmax h =>
    obtain ⟨c', hc', hvalid, -⟩ := createExclusion_spec hmin hmax
    rw [hc'] at h
    obtain rfl := Option.some.inj (Outcome.done.inj h)
    exact ⟨_, hvalid⟩
  | merge _ _ hfine h iha ihb =>
    obtain ⟨w, ha⟩ := iha
    obtain ⟨v, hb⟩ := ihb
    obtain ⟨r, hr, -, hwell⟩ := (mergesSoundly_iff ha hb).2 hfine
    obtain ⟨u, hu⟩ := hwell _ (Outcome.done.inj (hr.symm.trans h))
    exact ⟨u, hu.valid⟩
  | intersect _ _ hexact h _ _ =>
    obtain ⟨r, w, hrun, hr⟩ := hexact
    exact ⟨w, hr.valid _ (Outcome.done.inj ((hrun _ le_rfl).symm.trans h))⟩

/-- `merge` is defined, allows the values of both operands and has true bounds
exactly under its condition. This covers everything that is built. -/
theorem merge_upper_bound_iff (a b : VPConstraint) :
    (∀ w v, Valid w a → Valid v b → (MergesSoundly a b ↔ MergeFine a b)) ∧
      (Built a → Built b → (MergesSoundly a b ↔ MergeFine a b)) := by
  refine ⟨fun w v ha hb => mergesSoundly_iff ha hb, fun ha hb => ?_⟩
  obtain ⟨w, ha⟩ := ha.valid
  obtain ⟨v, hb⟩ := hb.valid
  exact mergesSoundly_iff ha hb

/-- A range that ends in front of one of the other width is not lost. -/
theorem merge_upper_bound_iff_apart :
    MergesSoundly (.simple (.range .int 0 4 .no)) (.simple (.range .long 7 9 .no)) :=
  ((merge_upper_bound_iff _ _).2
    (.create (by decide : Width.int.minSigned ≤ 0) (by decide : (0 : ℤ) ≤ 4) (by decide) rfl)
    (.create (by decide : Width.long.minSigned ≤ 7) (by decide : (7 : ℤ) ≤ 9) (by decide) rfl)).2
    (by show IntLongFine _ _; decide)

/-- The upper bound of the 32-bit range wraps, and the result lists a range that
lies within the one before it. -/
theorem int_long_merge_not_sound :
    Valid .int (.simple (.range .int 0 2147483647 .no)) ∧
      Valid .long (.simple (.range .long 5 9 .no)) ∧
      (simple (.range .int 0 2147483647 .no)).merge (.simple (.range .long 5 9 .no)) =
        .done (some (.merged [.simple (.range .int 0 2147483647 .no), .simple (.range .int 5 9 .no)])) ∧
      ¬ MergesSoundly (.simple (.range .int 0 2147483647 .no)) (.simple (.range .long 5 9 .no)) := by
  have hmerge : (simple (.range .int 0 2147483647 .no)).merge (.simple (.range .long 5 9 .no)) =
      .done (some (.merged [.simple (.range .int 0 2147483647 .no),
        .simple (.range .int 5 9 .no)])) := by decide
  refine ⟨.simple (by decide) (by decide), .simple (by decide) (by decide), hmerge, ?_⟩
  rintro ⟨r, hr, -, hwell⟩
  obtain ⟨w, hw⟩ := hwell _ (Outcome.done.inj (hr.symm.trans hmerge))
  have hsep := hw.separated [.range .int 0 2147483647 .no, .range .int 5 9 .no] rfl
  exact absurd hsep (by decide)

end VPConstraint

end OMR.Compiler
