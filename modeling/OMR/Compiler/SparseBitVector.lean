import OMR.Compiler.SparseOrSegment

/-!
# Sparse bit vectors

The segments of an `ASparseBitVector` are in the order of their upper halves. `Set`, `FindSegment`
and `AddSegment` go over them to the first one whose upper half is not below that of an index.
-/

namespace OMR.Compiler.SparseBitVector

/-- The upper half of an index. -/
def highHalf (index : BitVec 32) : ℕ := index.toNat >>> 16

/-- The lower half of an index. -/
def lowHalf (index : BitVec 32) : ℕ := index.toNat % 2 ^ 16

/-- `FindSegment`. -/
def findSegment (high : ℕ) : List Segment → Option Segment
  | [] => none
  | s :: rest =>
    if s.fHighBits ≥ high then if s.fHighBits = high then some s else none
    else findSegment high rest

/-- The loop of `Set` and of `AddSegment`: a segment that is there is changed, and otherwise the
ones behind the place are moved and a new one is put there. -/
def withSegment (high : ℕ) (found : Segment → Option Segment) (new : Option Segment) :
    List Segment → Option (List Segment)
  | [] => new.map fun s => [s]
  | s :: rest =>
    if s.fHighBits ≥ high then
      if s.fHighBits = high then (found s).map fun s' => s' :: rest
      else new.map fun s' => s' :: s :: rest
    else (withSegment high found new rest).map fun rest' => s :: rest'

/-- `SparseBitRef::Set`. -/
def set (index : BitVec 32) (v : List Segment) : Option (List Segment) :=
  withSegment (highHalf index) (fun s => setSegment s index.toNat)
    (some ⟨8 / 2, highHalf index, [lowHalf index]⟩) v

/-- `ValueAt`. -/
def valueAt (v : List Segment) (index : BitVec 32) : Bool :=
  match findSegment (highHalf index) v with
  | some s => getSegment s index.toNat
  | none => false

/-- `AddSegment` for some number of values, and what is then written to the segment. -/
def addSegment (high count : ℕ) (write : Segment → Option Segment) (v : List Segment) :
    Option (List Segment) :=
  withSegment high (fun s => write (growSegment s count 0)) (write ⟨count % 2 ^ 16, high, []⟩) v

/-- The `memcpy` of the second `AddSegment`. -/
def writeValues (bits : List ℕ) (s : Segment) : Option Segment :=
  if bits.length ≤ s.fSize then some { s with values := bits } else none

/-- The third `OrSegment`, for an array of lower halves. -/
def orBits (high : ℕ) (bits : List ℕ) (v : List Segment) : Option (List Segment) :=
  match findSegment high v with
  | some _ =>
    withSegment high
      (fun s => (orSegment s ⟨bits.length, high, bits⟩ s true).map fun r => r.1) none v
  | none => addSegment high bits.length (writeValues bits) v

/-- A sorted array of lower halves, with as many elements as `OrSegment` asserts. -/
structure Bits where
  values : List ℕ
  sorted : values.Pairwise (· < ·)
  values_lt : ∀ x ∈ values, x < 2 ^ 16
  count_pos : 0 < values.length
  count_le : values.length ≤ kSegmentMask

/-- The ways to set bits. -/
inductive Setting where
  | set (index : BitVec 32)
  | orSegment (index : BitVec 32) (bits : Bits)

namespace Setting

def high : Setting → ℕ
  | set index => highHalf index
  | orSegment index _ => highHalf index

def lows : Setting → List ℕ
  | set index => [lowHalf index]
  | orSegment _ bits => bits.values

/-- The indices that are set. -/
def Sets (setting : Setting) (index : BitVec 32) : Prop :=
  highHalf index = setting.high ∧ lowHalf index ∈ setting.lows

def exec : Setting → List Segment → Option (List Segment)
  | set index, v => SparseBitVector.set index v
  | orSegment index bits, v => orBits (highHalf index) bits.values v

/-- A sequence of settings, in order. -/
def run : List Setting → List Segment → Option (List Segment)
  | [], v => some v
  | setting :: settings, v => (setting.exec v).bind (run settings)

end Setting

/-- The segments of a vector, in their order. -/
structure Ordered (v : List Segment) : Prop where
  sorted : v.Pairwise fun a b => a.fHighBits < b.fHighBits
  wellFormed : ∀ s ∈ v, s.WellFormed

/-- The members, by the halves of their indices. -/
def Member (v : List Segment) (high low : ℕ) : Prop :=
  ∃ s ∈ v, s.fHighBits = high ∧ low ∈ s.values

section Segments

variable {v : List Segment} {high : ℕ}

theorem findSegment_eq_some_iff (h : v.Pairwise fun a b => a.fHighBits < b.fHighBits)
    {s : Segment} : findSegment high v = some s ↔ s ∈ v ∧ s.fHighBits = high := by
  induction v with
  | nil => simp [findSegment]
  | cons a v ih =>
    obtain ⟨hlt, hrest⟩ := List.pairwise_cons.1 h
    rw [findSegment]
    split
    next hge =>
      split
      next heq =>
        refine ⟨fun hs => ?_, fun ⟨hs, hhigh⟩ => ?_⟩
        · obtain rfl := Option.some.inj hs
          exact ⟨List.mem_cons_self .., heq⟩
        · rcases List.mem_cons.1 hs with rfl | hs
          · rfl
          · exact absurd (hlt s hs) (by omega)
      next hne =>
        refine ⟨fun hs => absurd hs (by simp), fun ⟨hs, hhigh⟩ => ?_⟩
        rcases List.mem_cons.1 hs with rfl | hs
        · exact absurd hhigh hne
        · exact absurd (hlt s hs) (by omega)
    next hnot =>
      rw [ih hrest]
      refine ⟨fun ⟨hs, hhigh⟩ => ⟨List.mem_cons_of_mem _ hs, hhigh⟩, fun ⟨hs, hhigh⟩ => ?_⟩
      rcases List.mem_cons.1 hs with rfl | hs
      · exact absurd hhigh.ge hnot
      · exact ⟨hs, hhigh⟩

theorem findSegment_eq_none_iff (h : v.Pairwise fun a b => a.fHighBits < b.fHighBits) :
    findSegment high v = none ↔ ∀ s ∈ v, s.fHighBits ≠ high := by
  rw [Option.eq_none_iff_forall_ne_some]
  exact ⟨fun hnone s hs hhigh => hnone s ((findSegment_eq_some_iff h).2 ⟨hs, hhigh⟩),
    fun hall s hs => hall s ((findSegment_eq_some_iff h).1 hs).1
      ((findSegment_eq_some_iff h).1 hs).2⟩

/-- A segment at its place between the other ones. -/
def place (s : Segment) (v : List Segment) : List Segment :=
  v.filter (fun a => a.fHighBits < s.fHighBits) ++
    s :: v.filter fun a => s.fHighBits < a.fHighBits

theorem mem_place {s a : Segment} :
    a ∈ place s v ↔ a = s ∨ a ∈ v ∧ a.fHighBits ≠ s.fHighBits := by
  simp only [place, List.mem_append, List.mem_cons, List.mem_filter, decide_eq_true_eq]
  constructor
  · rintro (⟨ha, hlt⟩ | rfl | ⟨ha, hlt⟩)
    · exact .inr ⟨ha, hlt.ne⟩
    · exact .inl rfl
    · exact .inr ⟨ha, hlt.ne'⟩
  · rintro (rfl | ⟨ha, hne⟩)
    · exact .inr (.inl rfl)
    · rcases Nat.lt_or_gt_of_ne hne with hlt | hgt
      · exact .inl ⟨ha, hlt⟩
      · exact .inr (.inr ⟨ha, hgt⟩)

theorem place_sorted (h : v.Pairwise fun a b => a.fHighBits < b.fHighBits) (s : Segment) :
    (place s v).Pairwise fun a b => a.fHighBits < b.fHighBits := by
  have hbelow : ∀ a ∈ v.filter (fun a => a.fHighBits < s.fHighBits),
      a.fHighBits < s.fHighBits := fun a ha => of_decide_eq_true (List.mem_filter.1 ha).2
  have habove : ∀ a ∈ v.filter (fun a => s.fHighBits < a.fHighBits),
      s.fHighBits < a.fHighBits := fun a ha => of_decide_eq_true (List.mem_filter.1 ha).2
  refine List.pairwise_append.2 ⟨h.filter _, List.pairwise_cons.2 ⟨habove, h.filter _⟩, ?_⟩
  intro a ha b hb
  rcases List.mem_cons.1 hb with rfl | hb
  · exact hbelow a ha
  · exact (hbelow a ha).trans (habove b hb)

/-- The loop puts the changed or the new segment at its place. -/
theorem withSegment_eq (h : v.Pairwise fun a b => a.fHighBits < b.fHighBits) (high : ℕ)
    (found : Segment → Option Segment) (new : Option Segment)
    (hfound : ∀ s ∈ v, s.fHighBits = high → ∀ s' ∈ found s, s'.fHighBits = high)
    (hnew : ∀ s ∈ new, s.fHighBits = high) :
    withSegment high found new v =
      ((findSegment high v).elim new found).map fun s => place s v := by
  induction v with
  | nil => rfl
  | cons a v ih =>
    obtain ⟨hlt, hrest⟩ := List.pairwise_cons.1 h
    rw [withSegment, findSegment]
    by_cases hge : a.fHighBits ≥ high
    · have hnone : v.filter (fun b => b.fHighBits < high) = [] := by
        refine List.filter_eq_nil_iff.2 fun b hb => ?_
        have := hlt b hb
        rw [decide_eq_true_eq]
        omega
      have hall : v.filter (fun b => high < b.fHighBits) = v := by
        refine List.filter_eq_self.2 fun b hb => ?_
        have := hlt b hb
        rw [decide_eq_true_eq]
        omega
      rw [if_pos hge, if_pos hge]
      by_cases heq : a.fHighBits = high
      · rw [if_pos heq, if_pos heq]
        refine Option.map_congr fun s hs => ?_
        have hs' := hfound a (List.mem_cons_self ..) heq s hs
        rw [place, hs', List.filter_cons_of_neg (by rw [decide_eq_true_eq]; omega),
          List.filter_cons_of_neg (by rw [decide_eq_true_eq]; omega), hnone, hall]
        rfl
      · rw [if_neg heq, if_neg heq]
        refine Option.map_congr fun s hs => ?_
        rw [place, hnew s hs, List.filter_cons_of_neg (by rw [decide_eq_true_eq]; omega),
          List.filter_cons_of_pos (by rw [decide_eq_true_eq]; omega), hnone, hall]
        rfl
    · rw [if_neg hge, if_neg hge,
        ih hrest fun s hs => hfound s (List.mem_cons_of_mem _ hs), Option.map_map]
      refine Option.map_congr fun s hs => ?_
      have hs' : s.fHighBits = high := by
        cases hfind : findSegment high v with
        | none =>
          rw [hfind] at hs
          exact hnew s hs
        | some b =>
          rw [hfind] at hs
          obtain ⟨hb, hbHigh⟩ := (findSegment_eq_some_iff hrest).1 hfind
          exact hfound b (List.mem_cons_of_mem _ hb) hbHigh s hs
      rw [Function.comp_apply, place, place, hs',
        List.filter_cons_of_pos (by rw [decide_eq_true_eq]; omega),
        List.filter_cons_of_neg (by rw [decide_eq_true_eq]; omega)]
      rfl

theorem Ordered.place (h : Ordered v) {s : Segment} (hs : s.WellFormed) : Ordered (place s v) where
  sorted := place_sorted h.sorted s
  wellFormed := by
    intro a ha
    rcases mem_place.1 ha with rfl | ⟨ha, -⟩
    · exact hs
    · exact h.wellFormed a ha

/-- The members are those of the segment at its place and those of the other segments. -/
theorem member_place {s : Segment} {h l : ℕ} :
    Member (place s v) h l ↔ if h = s.fHighBits then l ∈ s.values else Member v h l := by
  unfold Member
  split
  next heq =>
    refine ⟨?_, fun hl => ⟨s, mem_place.2 (.inl rfl), heq.symm, hl⟩⟩
    rintro ⟨a, ha, hhigh, hl⟩
    rcases mem_place.1 ha with rfl | ⟨-, hne⟩
    · exact hl
    · exact absurd (hhigh.trans heq) hne
  next hne =>
    constructor
    · rintro ⟨a, ha, hhigh, hl⟩
      rcases mem_place.1 ha with rfl | ⟨ha, -⟩
      · exact absurd hhigh.symm hne
      · exact ⟨a, ha, hhigh, hl⟩
    · rintro ⟨a, ha, hhigh, hl⟩
      exact ⟨a, mem_place.2 (.inr ⟨ha, hhigh ▸ hne⟩), hhigh, hl⟩

theorem Ordered.member_iff (h : Ordered v) {s : Segment} (hfind : findSegment high v = some s)
    (l : ℕ) : Member v high l ↔ l ∈ s.values := by
  obtain ⟨hs, hhigh⟩ := (findSegment_eq_some_iff h.sorted).1 hfind
  refine ⟨?_, fun hl => ⟨s, hs, hhigh, hl⟩⟩
  rintro ⟨a, ha, haHigh, hl⟩
  have hfind' := (findSegment_eq_some_iff h.sorted).2 ⟨ha, haHigh⟩
  rw [hfind] at hfind'
  rwa [Option.some.inj hfind']

theorem Ordered.not_member (h : Ordered v) (hfind : findSegment high v = none) (l : ℕ) :
    ¬ Member v high l := by
  rintro ⟨s, hs, hhigh, -⟩
  exact (findSegment_eq_none_iff h.sorted).1 hfind s hs hhigh

end Segments

end OMR.Compiler.SparseBitVector
