import OMR.Compiler.SparseOutput

/-!
# The output vectors are intersection, difference and union

The intersection and the difference are always right. The union loses a segment of the vector
where the input adds nothing to it, as `CopySegment` does not set the number of values.
-/

namespace OMR.Compiler.SparseBitVector

section Indices

variable {fSize : ℕ} {thisIndices inputIndices out : List ℕ}

/-- The elements that are passed are smaller. -/
theorem mem_dropWhile_iff {l : List ℕ} {value x : ℕ} (hle : value ≤ x) :
    x ∈ l.dropWhile (· < value) ↔ x ∈ l := by
  induction l with
  | nil => rfl
  | cons a l ih =>
    by_cases hlt : a < value
    · rw [List.dropWhile_cons_of_pos (by rwa [decide_eq_true_eq]), ih, List.mem_cons]
      exact ⟨.inr, fun hx => hx.resolve_left (by omega)⟩
    · rw [List.dropWhile_cons_of_neg (by rwa [decide_eq_true_eq])]

/-- A value is in a sorted array if it comes first when the smaller ones are passed. -/
theorem mem_iff_head?_dropWhile {l : List ℕ} (h : l.Pairwise (· < ·)) (value : ℕ) :
    value ∈ l ↔ (l.dropWhile (· < value)).head? = some value := by
  rw [← mem_dropWhile_iff le_rfl]
  have hsorted : (l.dropWhile (· < value)).Pairwise (· < ·) :=
    h.sublist (List.dropWhile_sublist _)
  have hhead : ∀ a ∈ (l.dropWhile (· < value)).head?, value ≤ a := by
    intro a ha
    have hnot := List.head?_dropWhile_not (· < value) l
    rw [Option.mem_def.1 ha] at hnot
    simpa using hnot
  revert hsorted hhead
  generalize l.dropWhile (· < value) = rest
  intro hsorted hhead
  cases rest with
  | nil => simp
  | cons a rest =>
    rw [List.head?_cons, Option.some.injEq]
    refine ⟨fun hmem => ?_, fun heq => heq ▸ List.mem_cons_self ..⟩
    rcases List.mem_cons.1 hmem with rfl | hmem
    · rfl
    · have hlt := (List.pairwise_cons.1 hsorted).1 value hmem
      have hle := hhead a rfl
      omega

theorem andIndices_spec (hthis : thisIndices.Pairwise (· < ·))
    (hinput : inputIndices.Pairwise (· < ·)) (hroom : out.length + thisIndices.length ≤ fSize)
    (changed : Bool) :
    ∃ changed', andIndices fSize thisIndices inputIndices out changed =
      some (out ++ thisIndices.filter (· ∈ inputIndices), changed') := by
  induction thisIndices generalizing inputIndices out changed with
  | nil => exact ⟨changed, by rw [andIndices, List.filter_nil, List.append_nil]⟩
  | cons value rest ih =>
    obtain ⟨hlt, hrest⟩ := List.pairwise_cons.1 hthis
    have hmem := mem_iff_head?_dropWhile hinput value
    have hsorted : (inputIndices.dropWhile (· < value)).Pairwise (· < ·) :=
      hinput.sublist (List.dropWhile_sublist _)
    have hfilter : rest.filter (· ∈ inputIndices) =
        rest.filter (· ∈ inputIndices.dropWhile (· < value)) :=
      List.filter_congr fun x hx => by rw [decide_eq_decide, mem_dropWhile_iff (hlt x hx).le]
    rw [List.length_cons] at hroom
    rw [andIndices]
    revert hmem hsorted hfilter
    generalize inputIndices.dropWhile (· < value) = passed
    intro hmem hsorted hfilter
    cases passed with
    | nil =>
      have hnot : value ∉ inputIndices := hmem.not.2 (by simp)
      refine ⟨true, ?_⟩
      rw [List.filter_cons_of_neg (by simpa using hnot), hfilter]
      simp
    | cons a passed =>
      rw [List.head?_cons, Option.some.injEq] at hmem
      dsimp only
      by_cases heq : a = value
      · rw [if_pos heq, if_pos (by omega),
          List.filter_cons_of_pos (by rw [decide_eq_true_eq]; exact hmem.2 heq), hfilter]
        have hroom' : (out ++ [value]).length + rest.length ≤ fSize := by
          rw [List.length_append, List.length_singleton]
          omega
        obtain ⟨changed', hrun⟩ := ih hrest hsorted hroom' changed
        exact ⟨changed', by rw [hrun, List.append_assoc]; rfl⟩
      · rw [if_neg heq,
          List.filter_cons_of_neg (by rw [decide_eq_true_eq]; exact hmem.not.2 heq), hfilter]
        exact ih hrest hsorted (by omega) true

theorem andcIndices_spec (hthis : thisIndices.Pairwise (· < ·))
    (hinput : inputIndices.Pairwise (· < ·)) (hroom : out.length + thisIndices.length ≤ fSize)
    (changed : Bool) :
    ∃ changed', andcIndices fSize thisIndices inputIndices out changed =
      some (out ++ thisIndices.filter (· ∉ inputIndices), changed') := by
  induction thisIndices generalizing inputIndices out changed with
  | nil => exact ⟨changed, by rw [andcIndices, List.filter_nil, List.append_nil]⟩
  | cons value rest ih =>
    obtain ⟨hlt, hrest⟩ := List.pairwise_cons.1 hthis
    have hmem := mem_iff_head?_dropWhile hinput value
    have hsorted : (inputIndices.dropWhile (· < value)).Pairwise (· < ·) :=
      hinput.sublist (List.dropWhile_sublist _)
    have hfilter : rest.filter (· ∉ inputIndices) =
        rest.filter (· ∉ inputIndices.dropWhile (· < value)) :=
      List.filter_congr fun x hx => by rw [decide_eq_decide, mem_dropWhile_iff (hlt x hx).le]
    rw [List.length_cons] at hroom
    rw [andcIndices]
    by_cases hin : value ∈ inputIndices
    · rw [if_neg (not_not.2 (hmem.1 hin)), List.filter_cons_of_neg (by simpa using hin), hfilter]
      exact ih hrest hsorted (by omega) true
    · rw [if_pos (hmem.not.1 hin), if_pos (by omega),
        List.filter_cons_of_pos (by rwa [decide_eq_true_eq]), hfilter]
      have hroom' : (out ++ [value]).length + rest.length ≤ fSize := by
        rw [List.length_append, List.length_singleton]
        omega
      obtain ⟨changed', hrun⟩ := ih hrest hsorted hroom' changed
      exact ⟨changed', by rw [hrun, List.append_assoc]; rfl⟩

end Indices

variable {s is : Segment} {v inputVector outputVector : List Segment}

/-- The segment that `AddSegment` makes for the values of another one. -/
def fresh (s : Segment) : Segment := ⟨s.populationCount % 2 ^ 16, s.fHighBits, []⟩

theorem Segment.WellFormed.populationCount_mod (h : s.WellFormed) :
    s.populationCount % 2 ^ 16 = s.values.length :=
  Nat.mod_eq_of_lt (lt_of_le_of_lt (h.length_le.trans h.fSize_le) (by decide))

theorem growSegment_of_fresh (h : s.WellFormed) :
    growSegment (fresh s) s.populationCount 0 = ⟨s.values.length, s.fHighBits, []⟩ := by
  have hle : s.populationCount ≤ kSegmentMask := h.length_le.trans h.fSize_le
  have hpos : s.values.length ≠ 0 := (List.length_pos_iff.2 h.ne_nil).ne'
  unfold growSegment fresh
  rw [if_neg (lt_irrefl 0)]
  dsimp only
  rw [h.populationCount_mod, if_neg (show ¬ s.values.length > s.populationCount from lt_irrefl _),
    if_neg (not_lt.2 hle), if_neg hpos]
  rfl

/-- What an operation on two segments makes of a new segment. -/
structure OutputSegment (s : Segment) (keep : ℕ → Prop) (os : Segment) : Prop where
  fHighBits_eq : os.fHighBits = s.fHighBits
  mem_iff : ∀ x, x ∈ os.values ↔ keep x
  wellFormed : os.values ≠ [] → os.WellFormed

theorem finishSegment_spec (h : s.WellFormed) (p : ℕ → Bool) :
    OutputSegment s (fun x => x ∈ s.values ∧ p x = true)
      (finishSegment ⟨s.values.length, s.fHighBits, []⟩ (s.values.filter p)) := by
  have hle : (s.values.filter p).length ≤ kSegmentMask :=
    (List.length_filter_le _ _).trans (h.length_le.trans h.fSize_le)
  have hmod : (s.values.filter p).length % 2 ^ 16 = (s.values.filter p).length :=
    Nat.mod_eq_of_lt (lt_of_le_of_lt hle (by decide))
  unfold finishSegment
  split
  next hpos =>
    refine ⟨rfl, fun x => List.mem_filter, fun hne => ?_⟩
    exact
      { sorted := h.sorted.filter _
        ne_nil := hne
        values_lt := fun x hx => h.values_lt x (List.mem_filter.1 hx).1
        length_le := hmod.ge
        fSize_le := hmod.trans_le hle }
  next hzero =>
    have hnil : s.values.filter p = [] := List.length_eq_zero_iff.1 (by omega)
    refine ⟨rfl, fun x => ?_, fun hne => absurd rfl hne⟩
    rw [← List.mem_filter, hnil]

theorem andSegmentTo_spec (hs : s.WellFormed) (his : is.WellFormed) :
    ∃ os changed, andSegmentTo s is (fresh s) = some (os, changed) ∧
      OutputSegment s (fun x => x ∈ s.values ∧ x ∈ is.values) os := by
  have hroom : ([] : List ℕ).length + s.values.length ≤ s.values.length := by
    rw [List.length_nil, Nat.zero_add]
  obtain ⟨changed, hrun⟩ := andIndices_spec hs.sorted his.sorted hroom false
  have hfinish := finishSegment_spec hs fun x => decide (x ∈ is.values)
  refine ⟨_, changed, ?_, ⟨hfinish.fHighBits_eq, fun x => ?_, hfinish.wellFormed⟩⟩
  · rw [andSegmentTo, if_neg (by rw [Segment.isZero, List.isEmpty_iff]; exact hs.ne_nil),
      if_neg (by rw [Segment.isZero, List.isEmpty_iff]; exact his.ne_nil), growSegment_of_fresh hs]
    dsimp only
    rw [hrun, Option.map_some, List.nil_append]
  · rw [hfinish.mem_iff, decide_eq_true_eq]

theorem andcSegmentTo_spec (hs : s.WellFormed) (his : is.WellFormed) :
    ∃ os changed, andcSegmentTo s is (fresh s) = some (os, changed) ∧
      OutputSegment s (fun x => x ∈ s.values ∧ x ∉ is.values) os := by
  have hroom : ([] : List ℕ).length + s.values.length ≤ s.values.length := by
    rw [List.length_nil, Nat.zero_add]
  obtain ⟨changed, hrun⟩ := andcIndices_spec hs.sorted his.sorted hroom false
  have hfinish := finishSegment_spec hs fun x => decide (x ∉ is.values)
  refine ⟨_, changed, ?_, ⟨hfinish.fHighBits_eq, fun x => ?_, hfinish.wellFormed⟩⟩
  · have hzero : ¬ (s.isZero || is.isZero) = true := by
      rw [Bool.or_eq_true, Segment.isZero, Segment.isZero, List.isEmpty_iff, List.isEmpty_iff]
      exact not_or.2 ⟨hs.ne_nil, his.ne_nil⟩
    rw [andcSegmentTo, if_neg hzero, growSegment_of_fresh hs]
    dsimp only
    rw [hrun, Option.map_some, List.nil_append]
  · rw [hfinish.mem_iff, decide_eq_true_eq]

/-- A segment with the same values in an array of their number. -/
def copyOf (s : Segment) : Segment := ⟨s.populationCount % 2 ^ 16, s.fHighBits, s.values⟩

theorem copyOf_wellFormed (h : s.WellFormed) : (copyOf s).WellFormed where
  sorted := h.sorted
  ne_nil := h.ne_nil
  values_lt := h.values_lt
  length_le := h.populationCount_mod.ge
  fSize_le := h.populationCount_mod.trans_le (h.length_le.trans h.fSize_le)

theorem writeValues_fresh (h : s.WellFormed) :
    writeValues s.values ⟨s.populationCount % 2 ^ 16, s.fHighBits, []⟩ = some (copyOf s) :=
  if_pos h.populationCount_mod.ge

section AtEnd

variable {high count : ℕ}

theorem findSegment_of_lt (hlt : ∀ a ∈ v, a.fHighBits < high) : findSegment high v = none := by
  induction v with
  | nil => rfl
  | cons a v ih =>
    rw [findSegment, if_neg (hlt a (List.mem_cons_self ..)).not_ge]
    exact ih fun b hb => hlt b (List.mem_cons_of_mem _ hb)

/-- Behind smaller upper halves a segment is added at the end. -/
theorem addSegment_of_lt (hlt : ∀ a ∈ v, a.fHighBits < high)
    (write : Segment → Option Segment) :
    addSegment high count write v =
      (write ⟨count % 2 ^ 16, high, []⟩).map fun s => v ++ [s] := by
  unfold addSegment
  induction v with
  | nil => rfl
  | cons a v ih =>
    rw [withSegment, if_neg (hlt a (List.mem_cons_self ..)).not_ge,
      ih fun b hb => hlt b (List.mem_cons_of_mem _ hb), Option.map_map]
    rfl

theorem removeSegment_of_lt (hlt : ∀ a ∈ v, a.fHighBits < s.fHighBits) :
    removeSegment s.fHighBits (v ++ [s]) = v := by
  induction v with
  | nil => rw [List.nil_append, removeSegment, if_pos le_rfl, if_pos rfl]
  | cons a v ih =>
    rw [List.cons_append, removeSegment, if_neg (hlt a (List.mem_cons_self ..)).not_ge,
      ih fun b hb => hlt b (List.mem_cons_of_mem _ hb)]

end AtEnd

section Loop

variable {both : Segment → Segment → Segment → Option (Segment × Bool)}
variable {copyMissing removeZero : Bool}

/-- What the loop puts out for one segment, if anything. -/
def outSegment (both : Segment → Segment → Segment → Option (Segment × Bool))
    (copyMissing removeZero : Bool) (inputVector : List Segment) (s : Segment) :
    Option (Option Segment) :=
  match findSegment s.fHighBits inputVector with
  | none => some (if copyMissing then some (copyOf s) else none)
  | some is =>
    (both s is (fresh s)).map fun r => if removeZero && r.1.isZero then none else some r.1

/-- What the loop puts out for all segments. -/
def outSegments (both : Segment → Segment → Segment → Option (Segment × Bool))
    (copyMissing removeZero : Bool) (inputVector : List Segment) :
    List Segment → Option (List Segment)
  | [] => some []
  | s :: rest =>
    (outSegment both copyMissing removeZero inputVector s).bind fun x =>
      (outSegments both copyMissing removeZero inputVector rest).map fun l => x.toList ++ l

/-- The loop adds one segment after the other at the end. -/
theorem outputLoop_eq (hsorted : v.Pairwise fun a b => a.fHighBits < b.fHighBits)
    (hwell : ∀ s ∈ v, s.WellFormed)
    (hhigh : ∀ s is r, both s is (fresh s) = some r → s ∈ v →
      findSegment s.fHighBits inputVector = some is → r.1.fHighBits = s.fHighBits)
    (hlt : ∀ a ∈ outputVector, ∀ s ∈ v, a.fHighBits < s.fHighBits) (changed : Bool) :
    (outputLoop both copyMissing removeZero inputVector v outputVector changed).map Prod.fst =
      (outSegments both copyMissing removeZero inputVector v).map fun l => outputVector ++ l := by
  induction v generalizing outputVector changed with
  | nil => simp [outputLoop, outSegments]
  | cons s rest ih =>
    obtain ⟨hsRest, hrest⟩ := List.pairwise_cons.1 hsorted
    have hsLt : ∀ a ∈ outputVector, a.fHighBits < s.fHighBits :=
      fun a ha => hlt a ha s (List.mem_cons_self ..)
    have hrestLt : ∀ a ∈ outputVector, ∀ t ∈ rest, a.fHighBits < t.fHighBits :=
      fun a ha t ht => hlt a ha t (List.mem_cons_of_mem _ ht)
    have hs := hwell s (List.mem_cons_self ..)
    have hnext : ∀ (out : List Segment) (changed : Bool),
        (∀ a ∈ out, ∀ t ∈ rest, a.fHighBits < t.fHighBits) →
        (outputLoop both copyMissing removeZero inputVector rest out changed).map Prod.fst =
          (outSegments both copyMissing removeZero inputVector rest).map fun l => out ++ l :=
      fun out changed hout => ih hrest (fun t ht => hwell t (List.mem_cons_of_mem _ ht))
        (fun t is r hr ht his => hhigh t is r hr (List.mem_cons_of_mem _ ht) his) hout changed
    -- with a segment of this upper half at its end, the output is still below the rest
    have happend : ∀ x : Segment, x.fHighBits = s.fHighBits →
        ∀ a ∈ outputVector ++ [x], ∀ t ∈ rest, a.fHighBits < t.fHighBits := by
      intro x hx a ha t ht
      rcases List.mem_append.1 ha with ha | ha
      · exact hrestLt a ha t ht
      · rw [List.mem_singleton.1 ha, hx]
        exact hsRest t ht
    rw [outputLoop, outSegments, outSegment]
    cases hfind : findSegment s.fHighBits inputVector with
    | none =>
      dsimp only
      rw [Option.bind_some]
      cases copyMissing with
      | true =>
        rw [if_pos rfl, if_pos rfl, addSegment_of_lt hsLt, writeValues_fresh hs, Option.map_some,
          Option.bind_some, hnext _ _ (happend (copyOf s) rfl), Option.map_map]
        simp [Function.comp_def]
      | false =>
        rw [if_neg Bool.false_ne_true, if_neg Bool.false_ne_true, hnext _ _ hrestLt, Option.map_map]
        simp [Function.comp_def]
    | some is =>
      dsimp only
      rw [addedSegment, findSegment_of_lt hsLt]
      change Option.map Prod.fst ((both s is (fresh s)).bind _) = _
      cases hboth : both s is (fresh s) with
      | none => rfl
      | some r =>
        have hr := hhigh s is r hboth (List.mem_cons_self ..) hfind
        rw [Option.bind_some, addSegment_of_lt hsLt, Option.map_some, Option.bind_some,
          Option.map_some, Option.bind_some]
        cases hzero : (removeZero && r.1.isZero) with
        | true =>
          have hremove : removeSegment s.fHighBits (outputVector ++ [r.1]) = outputVector := by
            rw [← hr]
            exact removeSegment_of_lt fun a ha => hr ▸ hsLt a ha
          rw [if_pos rfl, if_pos rfl, hremove, hnext _ _ hrestLt, Option.map_map]
          simp [Function.comp_def]
        | false =>
          rw [if_neg Bool.false_ne_true, if_neg Bool.false_ne_true, hnext _ _ (happend r.1 hr),
            Option.map_map]
          simp [Function.comp_def]

theorem outSegments_spec (hsorted : v.Pairwise fun a b => a.fHighBits < b.fHighBits)
    (hhigh : ∀ s ∈ v, ∀ x, outSegment both copyMissing removeZero inputVector s = some (some x) →
      x.fHighBits = s.fHighBits) :
    ∀ l, outSegments both copyMissing removeZero inputVector v = some l →
      l.Pairwise (fun a b => a.fHighBits < b.fHighBits) ∧
      (∀ s ∈ v, (outSegment both copyMissing removeZero inputVector s).isSome) ∧
      ∀ x, x ∈ l ↔
        ∃ s ∈ v, outSegment both copyMissing removeZero inputVector s = some (some x) := by
  induction v with
  | nil =>
    intro l hl
    obtain rfl := Option.some.inj hl
    exact ⟨List.Pairwise.nil, fun s hs => absurd hs List.not_mem_nil, fun x => by simp⟩
  | cons s rest ih =>
    intro l hl
    obtain ⟨hsRest, hrest⟩ := List.pairwise_cons.1 hsorted
    obtain ⟨x, hx, hl⟩ := Option.bind_eq_some_iff.1 hl
    obtain ⟨l', hl', rfl⟩ := Option.map_eq_some_iff.1 hl
    obtain ⟨hpair, hsome, hmem⟩ := ih hrest
      (fun t ht => hhigh t (List.mem_cons_of_mem _ ht)) l' hl'
    refine ⟨?_, ?_, ?_⟩
    · cases x with
      | none => exact hpair
      | some x =>
        refine List.pairwise_cons.2 ⟨fun a ha => ?_, hpair⟩
        obtain ⟨t, ht, hta⟩ := (hmem a).1 ha
        rw [hhigh s (List.mem_cons_self ..) x hx, hhigh t (List.mem_cons_of_mem _ ht) a hta]
        exact hsRest t ht
    · intro t ht
      rcases List.mem_cons.1 ht with rfl | ht
      · rw [hx]
        rfl
      · exact hsome t ht
    · intro y
      rw [List.mem_append, hmem, List.exists_mem_cons_iff, hx, Option.mem_toList, Option.some.injEq]

theorem outSegments_isSome
    (hsome : ∀ s ∈ v, (outSegment both copyMissing removeZero inputVector s).isSome) :
    (outSegments both copyMissing removeZero inputVector v).isSome := by
  induction v with
  | nil => rfl
  | cons s rest ih =>
    obtain ⟨x, hx⟩ := Option.isSome_iff_exists.1 (hsome s (List.mem_cons_self ..))
    rw [outSegments, hx, Option.bind_some, Option.isSome_map]
    exact ih fun t ht => hsome t (List.mem_cons_of_mem _ ht)

/-- When every segment is put out right, the whole output is. -/
theorem outputLoop_exact (both : Segment → Segment → Segment → Option (Segment × Bool))
    (copyMissing removeZero : Bool) (keep : ℕ → ℕ → Prop) (h : Ordered v)
    (hhigh : ∀ s is r, both s is (fresh s) = some r → s ∈ v →
      findSegment s.fHighBits inputVector = some is → r.1.fHighBits = s.fHighBits)
    (hout : ∀ s ∈ v, ∃ x, outSegment both copyMissing removeZero inputVector s = some x ∧
      (∀ os ∈ x, os.WellFormed ∧ os.fHighBits = s.fHighBits) ∧
      ∀ l, (∃ os ∈ x, l ∈ os.values) ↔ keep s.fHighBits l) :
    ∃ r, outputLoop both copyMissing removeZero inputVector v [] false = some r ∧ Ordered r.1 ∧
      (∀ a ∈ r.1, ∃ s ∈ v, s.fHighBits = a.fHighBits) ∧
      ∀ high low, Member r.1 high low ↔ (∃ s ∈ v, s.fHighBits = high) ∧ keep high low := by
  have heq : (outputLoop both copyMissing removeZero inputVector v [] false).map Prod.fst =
      (outSegments both copyMissing removeZero inputVector v).map fun l => [] ++ l :=
    outputLoop_eq h.sorted h.wellFormed hhigh
      (fun a ha => absurd ha List.not_mem_nil) false
  have hsome : (outSegments both copyMissing removeZero inputVector v).isSome := by
    refine outSegments_isSome fun s hs => ?_
    obtain ⟨x, hx, -⟩ := hout s hs
    rw [hx]
    rfl
  obtain ⟨l, hl⟩ := Option.isSome_iff_exists.1 hsome
  have hhighOut : ∀ s ∈ v, ∀ x,
      outSegment both copyMissing removeZero inputVector s = some (some x) →
      x.WellFormed ∧ x.fHighBits = s.fHighBits := by
    intro s hs x hx
    obtain ⟨y, hy, hwell, -⟩ := hout s hs
    rw [hx] at hy
    exact hwell x (Option.some.inj hy).symm
  obtain ⟨hpair, -, hmem⟩ := outSegments_spec h.sorted (fun s hs x hx => (hhighOut s hs x hx).2) l hl
  rw [hl, Option.map_some, List.nil_append] at heq
  obtain ⟨r, hr, rfl⟩ := Option.map_eq_some_iff.1 heq
  refine ⟨r, hr, ⟨hpair, fun a ha => ?_⟩, fun a ha => ?_, fun high low => ?_⟩
  · obtain ⟨s, hs, hx⟩ := (hmem a).1 ha
    exact (hhighOut s hs a hx).1
  · obtain ⟨s, hs, hx⟩ := (hmem a).1 ha
    exact ⟨s, hs, (hhighOut s hs a hx).2.symm⟩
  · constructor
    · rintro ⟨a, ha, rfl, hlow⟩
      obtain ⟨s, hs, hx⟩ := (hmem a).1 ha
      obtain ⟨y, hy, -, hkeep⟩ := hout s hs
      have haHigh := (hhighOut s hs a hx).2
      rw [hx] at hy
      obtain rfl := Option.some.inj hy
      rw [haHigh]
      exact ⟨⟨s, hs, rfl⟩, (hkeep low).1 ⟨a, rfl, hlow⟩⟩
    · rintro ⟨⟨s, hs, rfl⟩, hkeepLow⟩
      obtain ⟨y, hy, hwell, hkeep⟩ := hout s hs
      obtain ⟨os, hos, hlow⟩ := (hkeep low).2 hkeepLow
      refine ⟨os, (hmem os).2 ⟨s, hs, ?_⟩, (hwell os hos).2, hlow⟩
      rw [hy, Option.mem_def.1 hos]

end Loop

theorem Ordered.member_of_mem (h : Ordered v) (hs : s ∈ v) (l : ℕ) :
    Member v s.fHighBits l ↔ l ∈ s.values :=
  h.member_iff ((findSegment_eq_some_iff h.sorted).2 ⟨hs, rfl⟩) l

theorem Member.exists_mem {high low : ℕ} (h : Member v high low) :
    ∃ s ∈ v, s.fHighBits = high := by
  obtain ⟨s, hs, hhigh, -⟩ := h
  exact ⟨s, hs, hhigh⟩

/-- With its empty results removed, an operation puts out what it has computed. -/
theorem outSegment_of_spec {both : Segment → Segment → Segment → Option (Segment × Bool)}
    (copyMissing : Bool) {keep : ℕ → Prop} (hfind : findSegment s.fHighBits inputVector = some is)
    (hboth : ∃ os changed, both s is (fresh s) = some (os, changed) ∧ OutputSegment s keep os) :
    ∃ x, outSegment both copyMissing true inputVector s = some x ∧
      (∀ os ∈ x, os.WellFormed ∧ os.fHighBits = s.fHighBits) ∧
      ∀ l, (∃ os ∈ x, l ∈ os.values) ↔ keep l := by
  obtain ⟨os, changed, hrun, hspec⟩ := hboth
  rw [outSegment, hfind]
  dsimp only
  rw [hrun, Option.map_some]
  refine ⟨_, rfl, ?_⟩
  by_cases hnil : os.values = []
  · rw [if_pos (by rw [Segment.isZero, hnil]; rfl)]
    refine ⟨fun a ha => absurd ha (by simp), fun l => ?_⟩
    rw [← hspec.mem_iff, hnil]
    simp
  · rw [if_neg (by rw [Segment.isZero, Bool.true_and, List.isEmpty_iff]; exact hnil)]
    refine ⟨fun a ha => ?_, fun l => ?_⟩
    · obtain rfl := Option.some.inj ha
      exact ⟨hspec.wellFormed hnil, hspec.fHighBits_eq⟩
    · rw [← hspec.mem_iff]
      simp

theorem isOutput_nil {keep : ℕ → ℕ → Prop} (hkeep : ∀ high low, ¬ keep high low)
    (changed : Bool) : IsOutput keep (some ([], changed)) := by
  refine ⟨_, rfl, ⟨List.Pairwise.nil, fun _ hs => absurd hs List.not_mem_nil⟩, fun high low => ?_⟩
  refine ⟨?_, fun h => absurd h (hkeep high low)⟩
  rintro ⟨s, hs, -⟩
  exact absurd hs List.not_mem_nil

theorem assign_isOutput (h : Ordered v) (changed : Bool) :
    IsOutput (Member v) (some (assign outputVector v, changed)) := by
  refine ⟨_, rfl, ⟨List.pairwise_map.2 h.sorted, fun a ha => ?_⟩, fun high low => ?_⟩
  · obtain ⟨s, hs, rfl⟩ := List.mem_map.1 ha
    exact copyOf_wellFormed (h.wellFormed s hs)
  · constructor
    · rintro ⟨a, ha, hhigh, hlow⟩
      obtain ⟨s, hs, rfl⟩ := List.mem_map.1 ha
      exact ⟨s, hs, hhigh, hlow⟩
    · rintro ⟨s, hs, hhigh, hlow⟩
      exact ⟨copyOf s, List.mem_map.2 ⟨s, hs, rfl⟩, hhigh, hlow⟩

theorem IsOutput.congr {keep keep' : ℕ → ℕ → Prop} {result : Option (List Segment × Bool)}
    (h : IsOutput keep result) (hkeep : ∀ high low, keep high low ↔ keep' high low) :
    IsOutput keep' result := by
  obtain ⟨r, hr, hordered, hmem⟩ := h
  exact ⟨r, hr, hordered, fun high low => (hmem high low).trans (hkeep high low)⟩

/-- `And` gives the intersection. -/
theorem andTo_isOutput (h : Ordered v) (hinput : Ordered inputVector)
    (outputVector : List Segment) :
    IsOutput (fun high low => Member v high low ∧ Member inputVector high low)
      (andTo v inputVector outputVector) := by
  unfold andTo
  split
  next hempty =>
    obtain rfl := List.isEmpty_iff.1 hempty
    exact isOutput_nil (fun high low hkeep => by
      obtain ⟨⟨s, hs, -⟩, -⟩ := hkeep
      exact List.not_mem_nil hs) false
  next =>
    obtain ⟨r, hr, hordered, -, hmem⟩ := outputLoop_exact andSegmentTo false true
      (fun high low => Member v high low ∧ Member inputVector high low) h
      (fun s is r hr hs hfind => by
        have his := ((findSegment_eq_some_iff hinput.sorted).1 hfind).1
        obtain ⟨os, changed, hrun, hspec⟩ :=
          andSegmentTo_spec (h.wellFormed s hs) (hinput.wellFormed is his)
        rw [hr] at hrun
        rw [Option.some.inj hrun]
        exact hspec.fHighBits_eq)
      (fun s hs => by
        cases hfind : findSegment s.fHighBits inputVector with
        | none =>
          refine ⟨none, by rw [outSegment, hfind]; rfl, fun os hos => absurd hos (by simp),
            fun l => ?_⟩
          simp [hinput.not_member hfind l]
        | some is =>
          have his := ((findSegment_eq_some_iff hinput.sorted).1 hfind).1
          obtain ⟨x, hx, hwell, hkeep⟩ := outSegment_of_spec false hfind
            (andSegmentTo_spec (h.wellFormed s hs) (hinput.wellFormed is his))
          refine ⟨x, hx, hwell, fun l => ?_⟩
          rw [hkeep, h.member_of_mem hs, hinput.member_iff hfind])
    refine ⟨r, hr, hordered, fun high low => ?_⟩
    rw [hmem]
    exact ⟨fun hkeep => hkeep.2, fun hkeep => ⟨hkeep.1.exists_mem, hkeep⟩⟩

/-- `Andc` gives the difference. -/
theorem andcTo_isOutput (h : Ordered v) (hinput : Ordered inputVector)
    (outputVector : List Segment) :
    IsOutput (fun high low => Member v high low ∧ ¬ Member inputVector high low)
      (andcTo v inputVector outputVector) := by
  unfold andcTo
  split
  next hempty =>
    refine (assign_isOutput h false).congr fun high low => ?_
    refine ⟨fun hlow => ⟨hlow, ?_⟩, fun hkeep => hkeep.1⟩
    rintro ⟨is, his, -⟩
    obtain ⟨s, hs, -⟩ := hlow
    rcases Bool.or_eq_true_iff.1 hempty with hnil | hnil
    · rw [List.isEmpty_iff.1 hnil] at hs
      exact List.not_mem_nil hs
    · rw [List.isEmpty_iff.1 hnil] at his
      exact List.not_mem_nil his
  next =>
    obtain ⟨r, hr, hordered, -, hmem⟩ := outputLoop_exact andcSegmentTo true true
      (fun high low => Member v high low ∧ ¬ Member inputVector high low) h
      (fun s is r hr hs hfind => by
        have his := ((findSegment_eq_some_iff hinput.sorted).1 hfind).1
        obtain ⟨os, changed, hrun, hspec⟩ :=
          andcSegmentTo_spec (h.wellFormed s hs) (hinput.wellFormed is his)
        rw [hr] at hrun
        rw [Option.some.inj hrun]
        exact hspec.fHighBits_eq)
      (fun s hs => by
        cases hfind : findSegment s.fHighBits inputVector with
        | none =>
          refine ⟨some (copyOf s), by rw [outSegment, hfind]; rfl, fun os hos => ?_, fun l => ?_⟩
          · obtain rfl := Option.some.inj hos
            exact ⟨copyOf_wellFormed (h.wellFormed s hs), rfl⟩
          · rw [h.member_of_mem hs]
            simp [hinput.not_member hfind l, copyOf]
        | some is =>
          have his := ((findSegment_eq_some_iff hinput.sorted).1 hfind).1
          obtain ⟨x, hx, hwell, hkeep⟩ := outSegment_of_spec true hfind
            (andcSegmentTo_spec (h.wellFormed s hs) (hinput.wellFormed is his))
          refine ⟨x, hx, hwell, fun l => ?_⟩
          rw [hkeep, h.member_of_mem hs, hinput.member_iff hfind])
    refine ⟨r, hr, hordered, fun high low => ?_⟩
    rw [hmem]
    exact ⟨fun hkeep => hkeep.2, fun hkeep => ⟨hkeep.1.exists_mem, hkeep⟩⟩

/-- The second loop of `Or` adds the segments that only the input has. -/
theorem orMissing_spec {thisVector rest : List Segment}
    (hout : outputVector.Pairwise fun a b => a.fHighBits < b.fHighBits)
    (hrest : rest.Pairwise fun a b => a.fHighBits < b.fHighBits) (hwell : ∀ t ∈ rest, t.WellFormed)
    (hnew : ∀ t ∈ rest, findSegment t.fHighBits thisVector = none →
      ∀ a ∈ outputVector, a.fHighBits ≠ t.fHighBits) (changed : Bool) :
    ∃ r, orMissing thisVector rest outputVector changed = some r ∧
      r.1.Pairwise (fun a b => a.fHighBits < b.fHighBits) ∧
      ∀ x, x ∈ r.1 ↔ x ∈ outputVector ∨
        ∃ t ∈ rest, findSegment t.fHighBits thisVector = none ∧ x = copyOf t := by
  induction rest generalizing outputVector changed with
  | nil => exact ⟨_, rfl, hout, fun x => by simp⟩
  | cons t rest ih =>
    obtain ⟨htRest, hrest'⟩ := List.pairwise_cons.1 hrest
    have hwell' : ∀ t ∈ rest, t.WellFormed := fun a ha => hwell a (List.mem_cons_of_mem _ ha)
    rw [orMissing]
    cases hfind : findSegment t.fHighBits thisVector with
    | none =>
      have hne := hnew t (List.mem_cons_self ..) hfind
      have hwrite := writeValues_fresh (hwell t (List.mem_cons_self ..))
      have hadd : addSegment t.fHighBits t.populationCount (writeValues t.values) outputVector =
          some (place (copyOf t) outputVector) := by
        rw [addSegment, withSegment_eq hout _ _ _ (fun a ha hhigh => absurd hhigh (hne a ha))
          (fun a ha => by rw [hwrite] at ha; rw [← Option.some.inj ha]; rfl),
          (findSegment_eq_none_iff hout).2 hne, hwrite]
        rfl
      dsimp only
      rw [hadd, Option.bind_some]
      obtain ⟨r, hr, hpair, hmem⟩ := ih (place_sorted hout (copyOf t)) hrest' hwell'
        (fun b hb hb' a ha => by
          rcases mem_place.1 ha with rfl | ⟨ha, -⟩
          · exact (htRest b hb).ne
          · exact hnew b (List.mem_cons_of_mem _ hb) hb' a ha) true
      refine ⟨r, hr, hpair, fun x => ?_⟩
      rw [hmem, mem_place, List.exists_mem_cons_iff]
      constructor
      · rintro ((rfl | ⟨hx, -⟩) | hx)
        · exact .inr (.inl ⟨hfind, rfl⟩)
        · exact .inl hx
        · exact .inr (.inr hx)
      · rintro (hx | ⟨-, rfl⟩ | hx)
        · exact .inl (.inr ⟨hx, hne x hx⟩)
        · exact .inl (.inl rfl)
        · exact .inr hx
    | some s =>
      obtain ⟨r, hr, hpair, hmem⟩ := ih hout hrest' hwell'
        (fun b hb => hnew b (List.mem_cons_of_mem _ hb)) changed
      refine ⟨r, hr, hpair, fun x => ?_⟩
      rw [hmem, List.exists_mem_cons_iff, hfind]
      simp

/-- Where both vectors have members of an upper half, the input adds one, and one is in neither. -/
def UnionFits (v inputVector : List Segment) : Prop :=
  ∀ high, (∃ low, Member v high low) → (∃ low, Member inputVector high low) →
    (∃ low, Member inputVector high low ∧ ¬ Member v high low) ∧
      ∃ low < 2 ^ 16, ¬ Member v high low ∧ ¬ Member inputVector high low

theorem card_union_le (hs : s.WellFormed) (his : is.WellFormed)
    (h : ∃ low < 2 ^ 16, low ∉ s.values ∧ low ∉ is.values) :
    (union s is).card ≤ kSegmentMask := by
  obtain ⟨x, hx, hnot, hnotInput⟩ := h
  have hsub : union s is ⊆ (Finset.range (2 ^ 16)).erase x := by
    intro y hy
    refine Finset.mem_erase.2 ⟨?_, Finset.mem_range.2 ?_⟩
    · rintro rfl
      exact (mem_union.1 hy).elim hnot hnotInput
    · exact (mem_union.1 hy).elim (hs.values_lt y) (his.values_lt y)
  refine (Finset.card_le_card hsub).trans_eq ?_
  rw [Finset.card_erase_of_mem (Finset.mem_range.2 hx), Finset.card_range]
  rfl

theorem orSegmentTo_fHighBits (hs : s.WellFormed) (his : is.WellFormed)
    (hhigh : s.fHighBits = is.fHighBits) {r : Segment × Bool}
    (hr : orSegmentTo s is (fresh s) = some r) : r.1.fHighBits = s.fHighBits := by
  have hresult := (orSegment_spec hs his hhigh (fresh s) false).1 r hr
  unfold OrResult at hresult
  split at hresult
  · rw [hresult]
    rfl
  · exact hresult.2.2.1

/-- `Or` gives the union exactly if every common segment fits and gets something new. -/
theorem orTo_isOutput_iff (h : Ordered v) (hinput : Ordered inputVector)
    (outputVector : List Segment) :
    IsOutput (fun high low => Member v high low ∨ Member inputVector high low)
      (orTo v inputVector outputVector) ↔ UnionFits v inputVector := by
  have hempty : ∀ high low, ¬ Member [] high low := by
    rintro high low ⟨s, hs, -⟩
    exact List.not_mem_nil hs
  unfold orTo
  by_cases hinputNil : inputVector = []
  · subst hinputNil
    refine iff_of_true ?_ fun high _ ⟨low, hlow⟩ => absurd hlow (hempty high low)
    exact (assign_isOutput h false).congr fun high low => by simp [hempty]
  by_cases hnil : v = []
  · subst hnil
    rw [if_neg (by rwa [List.isEmpty_iff]), if_pos List.isEmpty_nil]
    refine iff_of_true ?_ fun high ⟨low, hlow⟩ => absurd hlow (hempty high low)
    exact (assign_isOutput hinput true).congr fun high low => by simp [hempty]
  rw [if_neg (by rwa [List.isEmpty_iff]), if_neg (by rwa [List.isEmpty_iff])]
  have hhighs : ∀ s is r, orSegmentTo s is (fresh s) = some r → s ∈ v →
      findSegment s.fHighBits inputVector = some is → r.1.fHighBits = s.fHighBits := by
    intro s is r hr hs hfind
    obtain ⟨his, hsame⟩ := (findSegment_eq_some_iff hinput.sorted).1 hfind
    exact orSegmentTo_fHighBits (h.wellFormed s hs) (hinput.wellFormed is his) hsame.symm hr
  constructor
  · rintro ⟨r, hr, hordered, -⟩ high ⟨low, s, hs, rfl, -⟩ ⟨low', is, his, hsame, -⟩
    have hfind := (findSegment_eq_some_iff hinput.sorted).2 ⟨his, hsame⟩
    obtain ⟨q, hq, hr⟩ := Option.bind_eq_some_iff.1 hr
    have heq : (outputLoop orSegmentTo true false inputVector v [] false).map Prod.fst =
        (outSegments orSegmentTo true false inputVector v).map fun l => [] ++ l :=
      outputLoop_eq h.sorted h.wellFormed hhighs (fun a ha => absurd ha List.not_mem_nil) false
    have hqOut : outSegments orSegmentTo true false inputVector v = some q.1 := by
      change outputLoop orSegmentTo true false inputVector v [] false = some q at hq
      rw [hq, Option.map_some] at heq
      obtain ⟨l, hl, hlq⟩ := Option.map_eq_some_iff.1 heq.symm
      rw [hl, ← hlq, List.nil_append]
    have hhighOut : ∀ s ∈ v, ∀ x, outSegment orSegmentTo true false inputVector s =
        some (some x) → x.fHighBits = s.fHighBits := by
      intro s hs x hx
      unfold outSegment at hx
      cases hfind : findSegment s.fHighBits inputVector with
      | none =>
        rw [hfind] at hx
        rw [← Option.some.inj (Option.some.inj hx)]
        rfl
      | some is =>
        rw [hfind] at hx
        obtain ⟨p, hp, hpx⟩ := Option.map_eq_some_iff.1 hx
        rw [← Option.some.inj hpx]
        exact hhighs s is p hp hs hfind
    obtain ⟨hpair, hsome, hmem⟩ := outSegments_spec h.sorted hhighOut q.1 hqOut
    obtain ⟨r', hr', -, hmem'⟩ := orMissing_spec hpair hinput.sorted hinput.wellFormed
      (fun t ht hnone a ha => by
        obtain ⟨b, hb, hba⟩ := (hmem a).1 ha
        rw [hhighOut b hb a hba]
        exact (findSegment_eq_none_iff h.sorted).1 hnone b hb) q.2
    rw [hr] at hr'
    obtain rfl := Option.some.inj hr'
    obtain ⟨p, hp⟩ : ∃ p, orSegmentTo s is (fresh s) = some p := by
      have hisSome := hsome s hs
      unfold outSegment at hisSome
      rw [hfind] at hisSome
      exact Option.isSome_iff_exists.1 ((Option.isSome_map ..).symm.trans hisSome)
    have hpOut : p.1 ∈ r.1 := by
      refine (hmem' p.1).2 (.inl ((hmem p.1).2 ⟨s, hs, ?_⟩))
      rw [outSegment, hfind]
      dsimp only
      rw [hp]
      rfl
    have hpWell := hordered.wellFormed p.1 hpOut
    have hresult := (orSegment_spec (h.wellFormed s hs) (hinput.wellFormed is his) hsame.symm
      (fresh s) false).1 p hp
    unfold OrResult at hresult
    split at hresult
    next hsub =>
      -- the values that are copied are not counted
      obtain rfl := hresult
      exact absurd rfl hpWell.ne_nil
    next hnot =>
      obtain ⟨-, -, -, hunion⟩ := hresult
      obtain ⟨x, hx, hxNot⟩ : ∃ x ∈ is.values, x ∉ s.values := by
        by_contra hnone
        exact hnot fun x hx => by
          by_contra hxNot
          exact hnone ⟨x, hx, hxNot⟩
      obtain ⟨y, hy, hyNot⟩ := hpWell.exists_not_mem
      rw [hunion, mem_union, not_or] at hyNot
      simp only [h.member_of_mem hs, hinput.member_iff hfind]
      exact ⟨⟨x, hx, hxNot⟩, y, hy, hyNot⟩
  · intro hfits
    obtain ⟨q, hq, hordered, hqHigh, hmem⟩ := outputLoop_exact orSegmentTo true false
      (fun high low => Member v high low ∨ Member inputVector high low) h hhighs
      (fun s hs => by
        cases hfind : findSegment s.fHighBits inputVector with
        | none =>
          refine ⟨some (copyOf s), by rw [outSegment, hfind]; rfl, fun os hos => ?_, fun l => ?_⟩
          · obtain rfl := Option.some.inj hos
            exact ⟨copyOf_wellFormed (h.wellFormed s hs), rfl⟩
          · rw [h.member_of_mem hs]
            simp [hinput.not_member hfind l, copyOf]
        | some is =>
          obtain ⟨his, hsame⟩ := (findSegment_eq_some_iff hinput.sorted).1 hfind
          have hsWell := h.wellFormed s hs
          have hisWell := hinput.wellFormed is his
          obtain ⟨a, ha⟩ := List.exists_mem_of_ne_nil _ hsWell.ne_nil
          obtain ⟨b, hb⟩ := List.exists_mem_of_ne_nil _ hisWell.ne_nil
          have hcommon := hfits s.fHighBits ⟨a, (h.member_of_mem hs a).2 ha⟩
            ⟨b, (hinput.member_iff hfind b).2 hb⟩
          simp only [h.member_of_mem hs, hinput.member_iff hfind] at hcommon
          obtain ⟨⟨x, hx, hxNot⟩, hroom⟩ := hcommon
          obtain ⟨hresult, htotal⟩ := orSegment_spec hsWell hisWell hsame.symm (fresh s) false
          obtain ⟨p, hp⟩ :=
            Option.isSome_iff_exists.1 (htotal (card_union_le hsWell hisWell hroom))
          have hor := hresult p hp
          rw [OrResult, if_neg fun hsub => hxNot (hsub x hx)] at hor
          obtain ⟨-, hpWell, hpHigh, hunion⟩ := hor
          refine ⟨some p.1, ?_, fun os hos => ?_, fun l => ?_⟩
          · rw [outSegment, hfind]
            dsimp only
            rw [orSegmentTo, hp]
            rfl
          · obtain rfl := Option.some.inj hos
            exact ⟨hpWell, hpHigh⟩
          · rw [h.member_of_mem hs, hinput.member_iff hfind, ← mem_union, ← hunion]
            simp)
    obtain ⟨r, hr, hpair, hmem'⟩ := orMissing_spec hordered.sorted hinput.sorted hinput.wellFormed
      (fun t ht hnone a ha => by
        obtain ⟨b, hb, hba⟩ := hqHigh a ha
        rw [← hba]
        exact (findSegment_eq_none_iff h.sorted).1 hnone b hb) q.2
    refine ⟨r, ?_, ⟨hpair, fun a ha => ?_⟩, fun high low => ?_⟩
    · change (outputLoop orSegmentTo true false inputVector v [] false).bind _ = _
      rw [hq, Option.bind_some, hr]
    · rcases (hmem' a).1 ha with ha | ⟨t, ht, -, rfl⟩
      · exact hordered.wellFormed a ha
      · exact copyOf_wellFormed (hinput.wellFormed t ht)
    · constructor
      · rintro ⟨a, ha, hhigh, hlow⟩
        rcases (hmem' a).1 ha with ha | ⟨t, ht, -, rfl⟩
        · exact ((hmem high low).1 ⟨a, ha, hhigh, hlow⟩).2
        · exact .inr ⟨t, ht, hhigh, hlow⟩
      · intro hkeep
        have hleft : (∃ s ∈ v, s.fHighBits = high) → Member r.1 high low := by
          intro hthere
          obtain ⟨a, ha, hrest⟩ := (hmem high low).2 ⟨hthere, hkeep⟩
          exact ⟨a, (hmem' a).2 (.inl ha), hrest⟩
        rcases hkeep with hv | ⟨t, ht, hhigh, hlow⟩
        · exact hleft hv.exists_mem
        · cases hfind : findSegment t.fHighBits v with
          | none => exact ⟨copyOf t, (hmem' _).2 (.inr ⟨t, ht, hfind, rfl⟩), hhigh, hlow⟩
          | some s =>
            obtain ⟨hs, hsHigh⟩ := (findSegment_eq_some_iff h.sorted).1 hfind
            exact hleft ⟨s, hs, hsHigh.trans hhigh⟩

/-- The three operations give intersection, difference and union exactly if, where both vectors
have members of an upper half, the input has one that the vector has not, and some lower half is
in neither. -/
theorem outOfPlace_iff (v inputVector outputVector : List Segment) (h : Ordered v)
    (hinput : Ordered inputVector) :
    (IsOutput (fun high low => Member v high low ∧ Member inputVector high low)
        (andTo v inputVector outputVector) ∧
      IsOutput (fun high low => Member v high low ∧ ¬ Member inputVector high low)
        (andcTo v inputVector outputVector) ∧
      IsOutput (fun high low => Member v high low ∨ Member inputVector high low)
        (orTo v inputVector outputVector)) ↔
      ∀ high, (∃ low, Member v high low) → (∃ low, Member inputVector high low) →
        (∃ low, Member inputVector high low ∧ ¬ Member v high low) ∧
          ∃ low < 2 ^ 16, ¬ Member v high low ∧ ¬ Member inputVector high low := by
  constructor
  · rintro ⟨-, -, hor⟩
    exact (orTo_isOutput_iff h hinput outputVector).1 hor
  · intro hfits
    exact ⟨andTo_isOutput h hinput outputVector, andcTo_isOutput h hinput outputVector,
      (orTo_isOutput_iff h hinput outputVector).2 hfits⟩

theorem ordered_singleton (h : s.WellFormed) : Ordered [s] where
  sorted := List.pairwise_singleton ..
  wellFormed := fun a ha => by rwa [List.mem_singleton.1 ha]

theorem wellFormed_pair : (⟨4, 0, [1, 2]⟩ : Segment).WellFormed := by constructor <;> decide

theorem wellFormed_one : (⟨4, 0, [1]⟩ : Segment).WellFormed := by constructor <;> decide

theorem outOfPlace_iff_onePair :
    IsOutput (fun high low => Member [⟨4, 0, [1]⟩] high low ∧ Member [⟨4, 0, [1, 2]⟩] high low)
      (andTo [⟨4, 0, [1]⟩] [⟨4, 0, [1, 2]⟩] []) := by
  refine ((outOfPlace_iff _ _ [] (ordered_singleton wellFormed_one)
    (ordered_singleton wellFormed_pair)).2 ?_).1
  rintro high ⟨low, s, hs, rfl, -⟩ -
  obtain rfl := List.mem_singleton.1 hs
  refine ⟨⟨2, ⟨_, List.mem_singleton.2 rfl, rfl, by decide⟩, ?_⟩, 3, by decide, ?_, ?_⟩
  · rintro ⟨s, hs, -, hlow⟩
    obtain rfl := List.mem_singleton.1 hs
    revert hlow
    decide
  · rintro ⟨s, hs, -, hlow⟩
    obtain rfl := List.mem_singleton.1 hs
    revert hlow
    decide
  · rintro ⟨s, hs, -, hlow⟩
    obtain rfl := List.mem_singleton.1 hs
    revert hlow
    decide

/-- The union of {1, 2} and {1} is put out as an empty segment. -/
theorem orTo_contained :
    Ordered [⟨4, 0, [1, 2]⟩] ∧ Ordered [⟨4, 0, [1]⟩] ∧
      orTo [⟨4, 0, [1, 2]⟩] [⟨4, 0, [1]⟩] [] = some ([⟨2, 0, []⟩], false) ∧
      ¬ IsOutput (fun high low => Member [⟨4, 0, [1, 2]⟩] high low ∨ Member [⟨4, 0, [1]⟩] high low)
        (orTo [⟨4, 0, [1, 2]⟩] [⟨4, 0, [1]⟩] []) := by
  have hrun : orTo [⟨4, 0, [1, 2]⟩] [⟨4, 0, [1]⟩] [] = some ([⟨2, 0, []⟩], false) := by
    decide +kernel
  refine ⟨ordered_singleton wellFormed_pair, ordered_singleton wellFormed_one, hrun, ?_⟩
  rintro ⟨r, hr, hordered, -⟩
  rw [hrun] at hr
  obtain rfl := Option.some.inj hr
  exact (hordered.wellFormed _ (List.mem_singleton.2 rfl)).ne_nil rfl

end OMR.Compiler.SparseBitVector
