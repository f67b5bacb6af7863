import OMR.Om.Transitions

/-!
# Runs of shape transitions

Objects of one root layout take transitions in any order. A cached shape is the one asked
for as long as no two lists that are derived from one shape differ in length or only in the
core types of their slots, which the comparison of lists does not see.
-/

namespace OMR.Om

open OMR.Lib

inductive Op where
  | transitionLayout (object : ℕ) (attributes : List SlotAttr)
  | allocateObject (object layout : ℕ)
  | lookUpTransition (shape : ℕ) (attributes : List SlotAttr)

namespace Heap

variable {h h' : Heap} {b d s : ℕ} {r : List SlotAttr}

def exec (h : Heap) : Op → Option Heap
  | .transitionLayout object attributes => some (h.transitionLayout object attributes).1
  | .allocateObject object layout => some (h.setLayout object layout)
  | .lookUpTransition .. => some h

/-- Objects are allocated with, and transitions looked up at, shapes that exist. -/
def Permitted (h : Heap) : Op → Prop
  | .transitionLayout .. => True
  | .allocateObject _ shape | .lookUpTransition shape _ => shape < h.numShapes

/-- The different lists that have been derived from the shape. -/
def derivedLists (h : Heap) (base : ℕ) : List (List SlotAttr) :=
  (((List.range h.numShapes).filter fun d => (h.shape d).parentLayout = some base).map
    fun d => (h.shape d).instanceSlotAttrs).dedup

/-- A shape is returned only for its own list. -/
def Faithful (h : Heap) (shape : ℕ) (attributes : List SlotAttr) : Prop :=
  ∀ d ∈ h.lookUpTransition shape attributes (hash attributes),
    (h.shape d).instanceSlotAttrs = attributes

/-- What a transition of the object to `d` is for. -/
structure Transitioned (h : Heap) (object : ℕ) (attributes : List SlotAttr) (h' : Heap) (d : ℕ) :
    Prop where
  faithful : h.Faithful (h.layout object) attributes
  layout_eq : h'.layout = Function.update h.layout object d
  slots_kept : ∀ s, s < h.numShapes → h'.slots s = h.slots s
  slots_appended : h'.slots d = h.slots (h.layout object) ++ attributes
  offset_eq : (h'.shape d).instanceSlotOffset =
    (h.shape (h.layout object)).instanceSlotOffset + (h.shape (h.layout object)).instanceSlotWidth
  reused : attributes ∈ h.derivedLists (h.layout object) →
    (h.derivedLists (h.layout object)).length < 32 → h'.numShapes = h.numShapes ∧
      (h.shape d).parentLayout = some (h.layout object) ∧
      (h.shape d).instanceSlotAttrs = attributes

def Kept (h : Heap) (op : Op) (h' : Heap) : Prop :=
  match op with
  | .transitionLayout object attributes =>
    h.Transitioned object attributes h' (h.transitionLayout object attributes).2
  | .allocateObject .. => True
  | .lookUpTransition shape attributes => h.Faithful shape attributes

/-- No list in the transition set of the shape has another length than the one asked for, or
the same ids with other core types. -/
def Distinguished (h : Heap) (shape : ℕ) (attributes : List SlotAttr) : Prop :=
  ∀ table ∈ (h.shape shape).transitions, ∀ i < table.size, ∀ d ∈ table.entry i,
    (h.shape d).instanceSlotAttrs.length = attributes.length ∧
      (idsOf (h.shape d).instanceSlotAttrs = idsOf attributes →
        (h.shape d).instanceSlotAttrs = attributes)

instance (h : Heap) (shape : ℕ) (attributes : List SlotAttr) :
    Decidable (h.Distinguished shape attributes) := by
  unfold Distinguished
  infer_instance

def Meets (h : Heap) : Op → Prop
  | .transitionLayout object attributes => h.Distinguished (h.layout object) attributes
  | .allocateObject .. => True
  | .lookUpTransition shape attributes => h.Distinguished shape attributes

instance (h : Heap) : ∀ op, Decidable (h.Meets op)
  | .transitionLayout .. | .lookUpTransition .. => inferInstanceAs (Decidable (Distinguished ..))
  | .allocateObject .. => isTrue trivial

/-- The shapes in the transition set of a shape, in the order in which they were stored. -/
structure Stored (h : Heap) (base : ℕ) (stored : List ℕ) : Prop where
  table : (h.shape base).transitions = none ∧ stored = [] ∨
    ∃ table, (h.shape base).transitions = some table ∧ table.size = 32 ∧
      (probes 7 32).map table.entry =
        stored.map some ++ List.replicate (32 - stored.length) none
  length_le : stored.length ≤ 32
  derived : ∀ d ∈ stored, d < h.numShapes ∧ (h.shape d).parentLayout = some base
  distinct : stored.Pairwise fun d e =>
    spanEq (h.shape d).instanceSlotAttrs (h.shape e).instanceSlotAttrs = false
  complete : ∀ d, d < h.numShapes → (h.shape d).parentLayout = some base →
    (∃ e ∈ stored, (h.shape e).instanceSlotAttrs = (h.shape d).instanceSlotAttrs) ∨
      stored.length = 32

/-- Parents are allocated before their derivations. -/
def ParentsFirst (h : Heap) : Prop :=
  ∀ s p, s < h.numShapes → (h.shape s).parentLayout = some p → p < s

structure Inv (h : Heap) : Prop where
  layout_lt : ∀ o, h.layout o < h.numShapes
  parentsFirst : h.ParentsFirst
  offset_eq : ∀ s p, s < h.numShapes → (h.shape s).parentLayout = some p →
    (h.shape s).instanceSlotOffset =
      (h.shape p).instanceSlotOffset + (h.shape p).instanceSlotWidth
  stored : ∀ b, b < h.numShapes → ∃ stored, h.Stored b stored

theorem probes_nodup : (probes 7 32).Nodup := by decide

theorem mem_probes {i : ℕ} (hi : i < 32) : i ∈ probes 7 32 := by
  have hall : ∀ i : Fin 32, i.val ∈ probes 7 32 := by decide
  exact hall ⟨i, hi⟩

theorem lt_of_mem_probes {i : ℕ} (hi : i ∈ probes 7 32) : i < 32 := by
  have hall : ∀ i ∈ probes 7 32, i < 32 := by decide
  exact hall i hi

namespace Stored

variable {stored : List ℕ}

theorem lookUp_eq (hs : h.Stored b stored) (r : List SlotAttr) :
    h.lookUpTransition b r (hash r) =
      stored.find? fun d => spanEq r (h.shape d).instanceSlotAttrs := by
  rw [lookUpTransition, hash_eq]
  obtain ⟨hnone, rfl⟩ | ⟨table, hsome, hsize, hentries⟩ := hs.table
  · rw [hnone]
    rfl
  · rw [hsome, Option.bind_some, hsize]
    refine h.lookUpAmong_eq r hentries ?_
    cases 32 - stored.length with
    | zero => exact .inl rfl
    | succ n => exact .inr rfl

/-- The entries of the table are the shapes that are stored. -/
theorem mem_iff (hs : h.Stored b stored) :
    d ∈ stored ↔ ∃ table ∈ (h.shape b).transitions, ∃ i < table.size, d ∈ table.entry i := by
  obtain ⟨hnone, rfl⟩ | ⟨table, hsome, hsize, hentries⟩ := hs.table
  · simp [hnone]
  · have hmem : some d ∈ (probes 7 32).map table.entry ↔ d ∈ stored := by
      rw [hentries]
      simp
    rw [← hmem, List.mem_map, hsome]
    constructor
    · rintro ⟨i, hi, heq⟩
      exact ⟨table, rfl, i, hsize ▸ lt_of_mem_probes hi, heq⟩
    · rintro ⟨table', htable, i, hi, heq⟩
      obtain rfl := Option.some.inj htable
      exact ⟨i, mem_probes (hsize ▸ hi), heq⟩

theorem distinguished_iff (hs : h.Stored b stored) :
    h.Distinguished b r ↔ ∀ d ∈ stored, spanEq r (h.shape d).instanceSlotAttrs = true →
      (h.shape d).instanceSlotAttrs = r := by
  constructor
  · intro hdist d hd heq
    obtain ⟨table, htable, i, hi, hentry⟩ := hs.mem_iff.1 hd
    obtain ⟨hlen, hids⟩ := hdist table htable i hi d hentry
    obtain hne | heq := spanEq_iff.1 heq
    · exact absurd hlen.symm hne
    · exact hids heq.symm
  · intro hall table htable i hi d hentry
    have hd := hs.mem_iff.2 ⟨table, htable, i, hi, hentry⟩
    constructor
    · by_contra hne
      exact hne (congrArg List.length (hall d hd (spanEq_iff.2 (.inl (Ne.symm hne)))))
    · exact fun hids => hall d hd (spanEq_iff.2 (.inr hids.symm))

theorem distinct_of_ne (hs : h.Stored b stored) {e : ℕ} (hd : d ∈ stored) (he : e ∈ stored)
    (hne : d ≠ e) : spanEq (h.shape d).instanceSlotAttrs (h.shape e).instanceSlotAttrs = false := by
  have hsymm : Std.Symm fun d e =>
      spanEq (h.shape d).instanceSlotAttrs (h.shape e).instanceSlotAttrs = false :=
    ⟨fun d e hde => by rwa [spanEq_comm]⟩
  exact hs.distinct.forall hd he hne

/-- Only one stored list can be taken for the one asked for, if that is stored. -/
theorem faithful_iff (hs : h.Stored b stored) : h.Faithful b r ↔ h.Distinguished b r := by
  rw [hs.distinguished_iff, Faithful, hs.lookUp_eq]
  constructor
  · intro hfound d hd heq
    obtain ⟨e, he⟩ : ∃ e, stored.find? (fun d => spanEq r (h.shape d).instanceSlotAttrs) = some e :=
      Option.isSome_iff_exists.1 (List.find?_isSome.2 ⟨d, hd, heq⟩)
    have her : (h.shape e).instanceSlotAttrs = r := hfound e he
    by_contra hdr
    have hde : e ≠ d := fun heq => hdr (heq ▸ her)
    have hdistinct := hs.distinct_of_ne (List.mem_of_find?_eq_some he) hd hde
    rw [her, heq] at hdistinct
    cases hdistinct
  · intro hall d hd
    exact hall d (List.mem_of_find?_eq_some hd) (by simpa using List.find?_some hd)

/-- The transition set of a shape whose derivations are stored, with one more. -/
theorem store_eq (hs : h.Stored b stored) (derivation : ℕ) :
    ∃ table, (storeTransition ((h.shape b).transitions.or (some (initializeTransitionSet 32)))
        derivation 7).2 = some table ∧ table.size = 32 ∧
      (stored.length < 32 → (probes 7 32).map table.entry =
        (stored ++ [derivation]).map some ++
          List.replicate (32 - (stored ++ [derivation]).length) none) ∧
      (stored.length = 32 → (probes 7 32).map table.entry = stored.map some) := by
  obtain ⟨table, htable, hsize, hentries⟩ : ∃ table,
      (h.shape b).transitions.or (some (initializeTransitionSet 32)) = some table ∧
      table.size = 32 ∧ (probes 7 32).map table.entry =
        stored.map some ++ List.replicate (32 - stored.length) none := by
    obtain ⟨hnone, rfl⟩ | ⟨table, hsome, hsize, hentries⟩ := hs.table
    · exact ⟨_, by rw [hnone]; rfl, rfl, by decide⟩
    · exact ⟨table, by rw [hsome]; rfl, hsize, hentries⟩
  rw [htable]
  obtain hfull | hroom := Nat.eq_or_lt_of_le hs.length_le
  · rw [hfull, Nat.sub_self, List.replicate_zero, List.append_nil] at hentries
    refine ⟨table, ?_, hsize, fun hlt => absurd hfull hlt.ne, fun _ => hentries⟩
    simp only [storeTransition, Option.or_some, Option.getD_some, tryStoreTransition, hsize,
      table.storeAmong_full derivation hentries]
    rfl
  · obtain ⟨room, hroom'⟩ := Nat.exists_eq_succ_of_ne_zero (Nat.sub_ne_zero_of_lt hroom)
    rw [hroom', List.replicate_succ] at hentries
    obtain ⟨j, -, hstore, hentries'⟩ := table.storeAmong_eq derivation probes_nodup hentries
    refine ⟨table.set j derivation, ?_, hsize, fun _ => ?_, fun hfull => absurd hfull hroom.ne⟩
    · simp only [storeTransition, Option.or_some, Option.getD_some, tryStoreTransition, hsize,
        hstore]
      rfl
    · rw [hentries', List.length_append, List.length_singleton]
      congr 2
      omega

end Stored

section Slots

/-- What is computed along the parents of a shape does not depend on the fuel. -/
theorem ParentsFirst.within_eq {α : Type*} {f : ℕ → ℕ → α} {g : ℕ → Option α → α}
    (hparent : h.ParentsFirst)
    (hf : ∀ fuel s, f (fuel + 1) s = g s ((h.shape s).parentLayout.map (f fuel)))
    {fuel fuel' : ℕ} (hs : s < h.numShapes) (hfuel : s < fuel) (hfuel' : s < fuel') :
    f fuel s = f fuel' s := by
  induction fuel generalizing s fuel' with
  | zero => exact absurd hfuel (Nat.not_lt_zero s)
  | succ fuel ih =>
    cases fuel' with
    | zero => exact absurd hfuel' (Nat.not_lt_zero s)
    | succ fuel' =>
      rw [hf, hf]
      cases hp : (h.shape s).parentLayout with
      | none => rfl
      | some p =>
        have hps := hparent s p hs hp
        have heq : f fuel p = f fuel' p := ih (hps.trans hs) (by omega) (by omega)
        rw [Option.map_some, Option.map_some, heq]

/-- The slots do not depend on the fuel. -/
theorem ParentsFirst.slotsWithin_eq (hparent : h.ParentsFirst) {fuel fuel' : ℕ}
    (hs : s < h.numShapes) (hfuel : s < fuel) (hfuel' : s < fuel') :
    h.slotsWithin fuel s = h.slotsWithin fuel' s := by
  refine hparent.within_eq
    (g := fun s inherited => inherited.getD [] ++ (h.shape s).instanceSlotAttrs)
    (fun fuel s => ?_) hs hfuel hfuel'
  rw [slotsWithin]
  cases (h.shape s).parentLayout <;> rfl

theorem ParentsFirst.slots_of_parent (hparent : h.ParentsFirst) {p : ℕ} (hs : s < h.numShapes)
    (hp : (h.shape s).parentLayout = some p) :
    h.slots s = h.slots p ++ (h.shape s).instanceSlotAttrs := by
  have hps := hparent s p hs hp
  rw [slots, slotsWithin, hp, Option.elim_some, slots,
    hparent.slotsWithin_eq (hps.trans hs) hps (Nat.lt_succ_self p)]

/-- Slots stay where shapes keep their parents and their own slots. -/
theorem ParentsFirst.slots_congr (hparent : h.ParentsFirst)
    (hsame : ∀ s, s < h.numShapes → (h'.shape s).parentLayout = (h.shape s).parentLayout ∧
      (h'.shape s).instanceSlotAttrs = (h.shape s).instanceSlotAttrs)
    (hs : s < h.numShapes) : h'.slots s = h.slots s := by
  have hwithin : ∀ fuel s, s < h.numShapes → h'.slotsWithin fuel s = h.slotsWithin fuel s := by
    intro fuel
    induction fuel with
    | zero => exact fun _ _ => rfl
    | succ fuel ih =>
      intro s hs
      rw [slotsWithin, slotsWithin, (hsame s hs).1, (hsame s hs).2]
      cases hp : (h.shape s).parentLayout with
      | none => rfl
      | some p => rw [Option.elim_some, Option.elim_some, ih p ((hparent s p hs hp).trans hs)]
  exact hwithin (s + 1) s hs

@[simp] theorem slots_setLayout (h : Heap) (object shape s : ℕ) :
    (h.setLayout object shape).slots s = h.slots s := by
  have hwithin : ∀ fuel s, (h.setLayout object shape).slotsWithin fuel s =
      h.slotsWithin fuel s := by
    intro fuel
    induction fuel with
    | zero => exact fun _ => rfl
    | succ fuel ih =>
      intro s
      rw [slotsWithin, slotsWithin, funext ih]
      rfl
  exact hwithin (s + 1) s

end Slots

section Derive

/-- A shape keeps all but its transitions. -/
theorem deriveObjectLayout_kept (hs : s < h.numShapes) (b : ℕ) (r : List SlotAttr)
    (x : BitVec 64) :
    ∃ transitions, (h.deriveObjectLayout b r x).1.shape s =
      { h.shape s with transitions := transitions } := by
  by_cases hsb : s = b
  · subst hsb
    exact ⟨_, by simp [deriveObjectLayout, setShape, allocateObjectLayout, hs.ne]; rfl⟩
  · exact ⟨(h.shape s).transitions,
      by simp [deriveObjectLayout, setShape, allocateObjectLayout, hs.ne, hsb]⟩

theorem deriveObjectLayout_new (hb : b < h.numShapes) (r : List SlotAttr) (x : BitVec 64) :
    (h.deriveObjectLayout b r x).1.shape h.numShapes = h.initializedLayout b r := by
  simp [deriveObjectLayout, setShape, allocateObjectLayout, hb.ne', initializedLayout]

/-- The shapes after a derivation. -/
theorem deriveObjectLayout_shape (hb : b < h.numShapes) (r : List SlotAttr) :
    (h.deriveObjectLayout b r (hash r)).1.shape =
      Function.update (Function.update h.shape h.numShapes (h.initializedLayout b r)) b
        { h.shape b with
          transitions := (storeTransition
            ((h.shape b).transitions.or (some (initializeTransitionSet 32))) h.numShapes 7).2 } := by
  have hne : b ≠ h.numShapes := hb.ne
  funext s
  by_cases hsb : s = b
  · subst hsb
    simp [deriveObjectLayout, setShape, allocateObjectLayout, hash_eq, hne]
  · by_cases hsn : s = h.numShapes
    · subst hsn
      simp [deriveObjectLayout, setShape, allocateObjectLayout, hsb, initializedLayout]
    · simp [deriveObjectLayout, setShape, allocateObjectLayout, hsb, hsn]

/-- The shapes keep all but the transitions of the base. -/
theorem deriveObjectLayout_old (b : ℕ) (r : List SlotAttr) (hs : s < h.numShapes) :
    ((h.deriveObjectLayout b r (hash r)).1.shape s).parentLayout = (h.shape s).parentLayout ∧
      ((h.deriveObjectLayout b r (hash r)).1.shape s).instanceSlotAttrs =
        (h.shape s).instanceSlotAttrs ∧
      ((h.deriveObjectLayout b r (hash r)).1.shape s).instanceSlotOffset =
        (h.shape s).instanceSlotOffset ∧
      ((h.deriveObjectLayout b r (hash r)).1.shape s).instanceSlotWidth =
        (h.shape s).instanceSlotWidth := by
  obtain ⟨transitions, hkept⟩ := deriveObjectLayout_kept hs b r (hash r)
  rw [hkept]
  exact ⟨rfl, rfl, rfl, rfl⟩

theorem deriveObjectLayout_transitions (hb : b < h.numShapes) (r : List SlotAttr)
    (hs : s < h.numShapes) (hsb : s ≠ b) :
    ((h.deriveObjectLayout b r (hash r)).1.shape s).transitions = (h.shape s).transitions := by
  rw [deriveObjectLayout_shape hb, Function.update_of_ne hsb, Function.update_of_ne hs.ne]

variable {stored : List ℕ}

/-- The other shapes keep their transition sets. -/
theorem Stored.derive_other (hs : h.Stored s stored) (hb : b < h.numShapes) (r : List SlotAttr)
    (hlt : s < h.numShapes) (hsb : s ≠ b) :
    (h.deriveObjectLayout b r (hash r)).1.Stored s stored where
  table := by
    rw [deriveObjectLayout_transitions hb r hlt hsb]
    exact hs.table
  length_le := hs.length_le
  derived d hd := by
    obtain ⟨hdlt, hparent⟩ := hs.derived d hd
    exact ⟨Nat.lt_succ_of_lt hdlt, by rwa [(deriveObjectLayout_old b r hdlt).1]⟩
  distinct := by
    refine hs.distinct.imp_of_mem fun {d e} hd he hde => ?_
    rwa [(deriveObjectLayout_old b r (hs.derived d hd).1).2.1,
      (deriveObjectLayout_old b r (hs.derived e he).1).2.1]
  complete d hd hparent := by
    have hd : d < h.numShapes + 1 := hd
    obtain hlt | rfl := Nat.lt_succ_iff_lt_or_eq.1 hd
    · rw [(deriveObjectLayout_old b r hlt).1] at hparent
      obtain ⟨e, he, heq⟩ | hfull := hs.complete d hlt hparent
      · refine .inl ⟨e, he, ?_⟩
        rwa [(deriveObjectLayout_old b r (hs.derived e he).1).2.1,
          (deriveObjectLayout_old b r hlt).2.1]
      · exact .inr hfull
    · rw [deriveObjectLayout_new hb] at hparent
      exact absurd (Option.some.inj hparent).symm hsb

/-- A list that is not found is stored while there is room. -/
theorem Stored.derive (hs : h.Stored b stored) (hb : b < h.numShapes)
    (hnone : h.lookUpTransition b r (hash r) = none) :
    ∃ stored', (h.deriveObjectLayout b r (hash r)).1.Stored b stored' := by
  obtain ⟨table, htable, hsize, hroom, hfull⟩ := hs.store_eq h.numShapes
  have htransitions : ((h.deriveObjectLayout b r (hash r)).1.shape b).transitions = some table := by
    rw [deriveObjectLayout_shape hb, Function.update_self]
    exact htable
  have hnew := deriveObjectLayout_new hb r (hash r)
  have hold {d : ℕ} (hd : d ∈ stored) := deriveObjectLayout_old b r (hs.derived d hd).1
  have hdistinct : stored.Pairwise fun d e =>
      spanEq ((h.deriveObjectLayout b r (hash r)).1.shape d).instanceSlotAttrs
        ((h.deriveObjectLayout b r (hash r)).1.shape e).instanceSlotAttrs = false := by
    refine hs.distinct.imp_of_mem fun {d e} hd he hde => ?_
    rwa [(hold hd).2.1, (hold he).2.1]
  obtain heq | hlt := Nat.eq_or_lt_of_le hs.length_le
  · refine ⟨stored, .inr ⟨table, htransitions, hsize, ?_⟩, hs.length_le, fun d hd => ?_, hdistinct,
      fun d _ _ => .inr heq⟩
    · rw [hfull heq, heq, Nat.sub_self, List.replicate_zero, List.append_nil]
    · exact ⟨Nat.lt_succ_of_lt (hs.derived d hd).1, by rw [(hold hd).1]; exact (hs.derived d hd).2⟩
  · refine ⟨stored ++ [h.numShapes], .inr ⟨table, htransitions, hsize, hroom hlt⟩, ?_,
      fun d hd => ?_, ?_, fun d hd hparent => .inl ?_⟩
    · rw [List.length_append]
      exact hlt
    · obtain hd | hd := List.mem_append.1 hd
      · exact ⟨Nat.lt_succ_of_lt (hs.derived d hd).1,
          by rw [(hold hd).1]; exact (hs.derived d hd).2⟩
      · obtain rfl := List.mem_singleton.1 hd
        exact ⟨Nat.lt_succ_self _, by rw [hnew]; rfl⟩
    · refine List.pairwise_append.2 ⟨hdistinct, List.pairwise_singleton _ _, fun d hd e he => ?_⟩
      obtain rfl := List.mem_singleton.1 he
      rw [hs.lookUp_eq] at hnone
      have hfalse := List.find?_eq_none.1 hnone d hd
      rw [(hold hd).2.1, hnew, spanEq_comm]
      exact Bool.eq_false_iff.2 hfalse
    · have hd : d < h.numShapes + 1 := hd
      obtain hlt | rfl := Nat.lt_succ_iff_lt_or_eq.1 hd
      · rw [(deriveObjectLayout_old b r hlt).1] at hparent
        obtain ⟨e, he, heq⟩ | hfull := hs.complete d hlt hparent
        · refine ⟨e, List.mem_append_left _ he, ?_⟩
          rw [(hold he).2.1, (deriveObjectLayout_old b r hlt).2.1]
          exact heq
        · omega
      · exact ⟨h.numShapes, List.mem_append_right _ (List.mem_singleton_self _), rfl⟩

end Derive

section Steps

variable {object : ℕ}

/-- The invariant does not see which objects have a shape. -/
theorem Inv.setLayout (h' : Inv h) (object : ℕ) {shape : ℕ} (hlt : shape < h.numShapes) :
    Inv (h.setLayout object shape) where
  layout_lt o := by
    by_cases ho : o = object
    · subst ho
      simpa [Heap.setLayout] using hlt
    · simpa [Heap.setLayout, ho] using h'.layout_lt o
  parentsFirst := h'.parentsFirst
  offset_eq := h'.offset_eq
  stored b hb := by
    obtain ⟨stored, hs⟩ := h'.stored b hb
    exact ⟨stored, hs.table, hs.length_le, hs.derived, hs.distinct, hs.complete⟩

theorem Inv.derive (h' : Inv h) (hb : b < h.numShapes)
    (hnone : h.lookUpTransition b r (hash r) = none) :
    Inv (h.deriveObjectLayout b r (hash r)).1 where
  layout_lt o := Nat.lt_succ_of_lt (h'.layout_lt o)
  parentsFirst s p hs hp := by
    have hs : s < h.numShapes + 1 := hs
    obtain hlt | rfl := Nat.lt_succ_iff_lt_or_eq.1 hs
    · rw [(deriveObjectLayout_old b r hlt).1] at hp
      exact h'.parentsFirst s p hlt hp
    · rw [deriveObjectLayout_new hb] at hp
      obtain rfl := Option.some.inj hp
      exact hb
  offset_eq s p hs hp := by
    have hs : s < h.numShapes + 1 := hs
    obtain hlt | rfl := Nat.lt_succ_iff_lt_or_eq.1 hs
    · have hold := deriveObjectLayout_old b r hlt
      rw [hold.1] at hp
      have holdp := deriveObjectLayout_old b r ((h'.parentsFirst s p hlt hp).trans hlt)
      rw [hold.2.2.1, holdp.2.2.1, holdp.2.2.2]
      exact h'.offset_eq s p hlt hp
    · rw [deriveObjectLayout_new hb] at hp ⊢
      obtain rfl := Option.some.inj hp
      have hold := deriveObjectLayout_old b r hb
      rw [hold.2.2.1, hold.2.2.2]
      rfl
  stored s hs := by
    have hs : s < h.numShapes + 1 := hs
    obtain hlt | rfl := Nat.lt_succ_iff_lt_or_eq.1 hs
    · obtain ⟨stored, hstored⟩ := h'.stored s hlt
      by_cases hsb : s = b
      · subst hsb
        exact hstored.derive hb hnone
      · exact ⟨stored, hstored.derive_other hb r hlt hsb⟩
    · refine ⟨[], .inl ⟨by rw [deriveObjectLayout_new hb]; rfl, rfl⟩, Nat.zero_le _,
        fun d hd => absurd hd List.not_mem_nil, .nil, fun d hd hparent => ?_⟩
      have hd : d < h.numShapes + 1 := hd
      obtain hlt | rfl := Nat.lt_succ_iff_lt_or_eq.1 hd
      · rw [(deriveObjectLayout_old b r hlt).1] at hparent
        exact absurd (h'.parentsFirst d _ hlt hparent) hlt.asymm
      · rw [deriveObjectLayout_new hb] at hparent
        exact absurd (Option.some.inj hparent) hb.ne

theorem transitionLayout_of_some
    (hsome : h.lookUpTransition (h.layout object) r (hash r) = some d) :
    h.transitionLayout object r = (h.setLayout object d, d) := by
  simp [transitionLayout, takeExistingTransition, hsome]

theorem transitionLayout_of_none
    (hnone : h.lookUpTransition (h.layout object) r (hash r) = none) :
    h.transitionLayout object r =
      ((h.deriveObjectLayout (h.layout object) r (hash r)).1.setLayout object h.numShapes,
        h.numShapes) := by
  simp only [transitionLayout, takeExistingTransition, hnone, Option.elim_none, takeNewTransition]
  rfl

theorem mem_derivedLists : r ∈ h.derivedLists b ↔
    ∃ d < h.numShapes, (h.shape d).parentLayout = some b ∧ (h.shape d).instanceSlotAttrs = r := by
  simp [derivedLists, and_assoc]

/-- While fewer than 32 lists have been derived each of them is stored. -/
theorem Stored.exists_of_derived {stored : List ℕ} (hs : h.Stored b stored)
    (hr : r ∈ h.derivedLists b) (hfew : (h.derivedLists b).length < 32) :
    ∃ e ∈ stored, (h.shape e).instanceSlotAttrs = r := by
  obtain ⟨d, hd, hparent, rfl⟩ := mem_derivedLists.1 hr
  obtain hfound | hfull := hs.complete d hd hparent
  · exact hfound
  · have hnodup : (stored.map fun e => (h.shape e).instanceSlotAttrs).Nodup := by
      refine List.pairwise_map.2 (hs.distinct.imp fun {d e} hde heq => ?_)
      rw [heq, spanEq_refl] at hde
      cases hde
    have hsub : stored.map (fun e => (h.shape e).instanceSlotAttrs) ⊆ h.derivedLists b := by
      intro l hl
      obtain ⟨e, he, rfl⟩ := List.mem_map.1 hl
      obtain ⟨helt, heparent⟩ := hs.derived e he
      exact mem_derivedLists.2 ⟨e, helt, heparent, rfl⟩
    have hle := (hnodup.subperm hsub).length_le
    rw [List.length_map, hfull] at hle
    exact absurd hfew (Nat.not_lt.2 hle)

/-- A transition does what it is for exactly when the lists can be told apart. -/
theorem Inv.transitioned_iff (h' : Inv h) :
    h.Transitioned object r (h.transitionLayout object r).1 (h.transitionLayout object r).2 ↔
      h.Distinguished (h.layout object) r := by
  have hb := h'.layout_lt object
  obtain ⟨stored, hs⟩ := h'.stored _ hb
  rw [← hs.faithful_iff]
  refine ⟨Transitioned.faithful, fun hfaithful => ?_⟩
  cases hfound : h.lookUpTransition (h.layout object) r (hash r) with
  | some d =>
    have hattrs := hfaithful d hfound
    rw [hs.lookUp_eq] at hfound
    obtain ⟨hd, hparent⟩ := hs.derived d (List.mem_of_find?_eq_some hfound)
    rw [← hs.lookUp_eq] at hfound
    rw [transitionLayout_of_some hfound]
    refine ⟨hfaithful, rfl, fun s _ => slots_setLayout h object d s, ?_,
      h'.offset_eq d _ hd hparent, fun _ _ => ⟨rfl, hparent, hattrs⟩⟩
    rw [slots_setLayout, h'.parentsFirst.slots_of_parent hd hparent, hattrs]
  | none =>
    rw [transitionLayout_of_none hfound]
    have hinv := h'.derive hb hfound
    have hnew := deriveObjectLayout_new hb r (hash r)
    have hold {s : ℕ} (hs : s < h.numShapes) := deriveObjectLayout_old (h.layout object) r hs
    have hkept (s : ℕ) (hs : s < h.numShapes) :
        (h.deriveObjectLayout (h.layout object) r (hash r)).1.slots s = h.slots s :=
      h'.parentsFirst.slots_congr (fun s hs => ⟨(hold hs).1, (hold hs).2.1⟩) hs
    refine ⟨hfaithful, rfl, fun s hs => ?_, ?_, ?_, fun hr hfew => ?_⟩
    · rw [slots_setLayout]
      exact hkept s hs
    · have hslots := hinv.parentsFirst.slots_of_parent (Nat.lt_succ_self h.numShapes)
        (by rw [hnew]; rfl)
      rw [hnew, hkept _ hb] at hslots
      rw [slots_setLayout]
      exact hslots
    · change ((h.deriveObjectLayout (h.layout object) r (hash r)).1.shape
        h.numShapes).instanceSlotOffset = _
      rw [hnew]
      rfl
    · obtain ⟨e, he, heq⟩ := hs.exists_of_derived hr hfew
      rw [hs.lookUp_eq] at hfound
      have hnot := List.find?_eq_none.1 hfound e he
      rw [heq] at hnot
      exact absurd (spanEq_refl r) hnot

theorem Inv.transitionLayout (h' : Inv h) : Inv (h.transitionLayout object r).1 := by
  have hb := h'.layout_lt object
  obtain ⟨stored, hs⟩ := h'.stored _ hb
  cases hfound : h.lookUpTransition (h.layout object) r (hash r) with
  | some d =>
    rw [transitionLayout_of_some hfound]
    rw [hs.lookUp_eq] at hfound
    exact h'.setLayout object (hs.derived d (List.mem_of_find?_eq_some hfound)).1
  | none =>
    rw [transitionLayout_of_none hfound]
    exact (h'.derive hb hfound).setLayout object (Nat.lt_succ_self h.numShapes)

theorem inv_rootHeap (attrs : List SlotAttr) : Inv (rootHeap attrs) where
  layout_lt _ := Nat.one_pos
  parentsFirst _ _ _ hp := by cases hp
  offset_eq _ _ _ hp := by cases hp
  stored b hb := ⟨[], .inl ⟨rfl, rfl⟩, Nat.zero_le _, fun d hd => absurd hd List.not_mem_nil, .nil,
    fun _ _ hp => by cases hp⟩

theorem Inv.step (h' : Inv h) {op : Op} (hop : h.Permitted op) :
    ∃ h'', h.exec op = some h'' ∧ Inv h'' ∧ (h.Kept op h'' ↔ h.Meets op) := by
  cases op with
  | transitionLayout object attributes =>
    exact ⟨_, rfl, h'.transitionLayout, h'.transitioned_iff⟩
  | allocateObject object shape => exact ⟨_, rfl, h'.setLayout object hop, Iff.rfl⟩
  | lookUpTransition shape attributes =>
    obtain ⟨stored, hs⟩ := h'.stored shape hop
    exact ⟨_, rfl, h', hs.faithful_iff⟩

/-- In a run from one root layout, every lookup returns the list asked for, every transition
appends it and derivations are reused exactly when no list meets one of another length or of
the same ids with other core types in the set of its base. -/
theorem transitionRun_keeps_iff (attrs : List SlotAttr) (ops : List Op)
    (hops : EveryStep exec Permitted (rootHeap attrs) ops) :
    EveryStepKeeps exec Kept (rootHeap attrs) ops ↔ EveryStep exec Meets (rootHeap attrs) ops := by
  refine everyStepKeeps_iff (fun h op hinv hop => ?_) (fun h op h'' hinv hop _ hexec => ?_)
    (inv_rootHeap attrs) hops
  · obtain ⟨h'', hexec, -, hiff⟩ := hinv.step hop
    rw [← hiff]
    constructor
    · rintro ⟨h₂, hexec', hkept⟩
      rwa [Option.some.inj (hexec.symm.trans hexec')]
    · exact fun hkept => ⟨h'', hexec, hkept⟩
  · obtain ⟨h₂, hexec', hinv', -⟩ := hinv.step hop
    rwa [← Option.some.inj (hexec'.symm.trans hexec)]

/-- A slot of the given id and type. -/
def slot (id : BitVec 32) (coreType : CoreType) : SlotAttr := ⟨⟨0, coreType⟩, id⟩

/-- Two objects take the same transition and share the shape. -/
theorem transitionRun_keeps_iff_shared :
    EveryStepKeeps exec Kept (rootHeap [])
      [.transitionLayout 0 [slot 1 .int32], .transitionLayout 1 [slot 1 .int32]] := by
  refine (transitionRun_keeps_iff [] _ ?_).2 (by decide +kernel)
  exact ⟨trivial, fun _ _ => ⟨trivial, fun _ _ => trivial⟩⟩

/-- A second transition asks for two slots and gets the cached one with one slot. -/
theorem transitionLayout_of_other_length :
    EveryStep exec Permitted (rootHeap [])
        [.transitionLayout 0 [slot 1 .int32],
          .transitionLayout 1 [slot 2 .int32, slot 3 .int32]] ∧
      ¬ EveryStepKeeps exec Kept (rootHeap [])
        [.transitionLayout 0 [slot 1 .int32],
          .transitionLayout 1 [slot 2 .int32, slot 3 .int32]] := by
  refine ⟨⟨trivial, fun _ _ => ⟨trivial, fun _ _ => trivial⟩⟩, ?_⟩
  rintro ⟨h₁, hexec₁, -, h₂, -, hkept, -⟩
  obtain rfl := Option.some.inj hexec₁
  exact absurd (hkept.faithful 1 (by decide +kernel)) (by decide +kernel)

end Steps

end Heap

end OMR.Om
