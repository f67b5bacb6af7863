import OMR.Compiler.InterferenceGraph

/-!
# What an interference graph represents

The nodes are found by their entities, and lists, degrees and bits follow a relation on
entities. Interferences between two nodes are added and removed in all of them.
-/

namespace OMR.Compiler.InterferenceGraph

/-- Whether the one pair of entities is the other. -/
def samePair (a b x y : Entity) : Bool := x = a ∧ y = b ∨ x = b ∧ y = a

def recordPair (recorded : Entity → Entity → Bool) (a b : Entity) : Entity → Entity → Bool :=
  fun x y => recorded x y || (a ≠ b && samePair a b x y)

def erasePair (recorded : Entity → Entity → Bool) (a b : Entity) : Entity → Entity → Bool :=
  fun x y => recorded x y && !samePair a b x y

def eraseEntity (recorded : Entity → Entity → Bool) (a : Entity) : Entity → Entity → Bool :=
  fun x y => recorded x y && (x ≠ a && y ≠ a)

/-- The entity of some node. -/
def Graph.Contains (g : Graph) (entity : Entity) : Prop :=
  ∃ k < g.numNodes, (g.node k).entity = entity

instance (g : Graph) (entity : Entity) : Decidable (g.Contains entity) :=
  inferInstanceAs (Decidable (∃ k < g.numNodes, (g.node k).entity = entity))

/-- The nodes stand under their numbers and in the buckets of their entities. -/
structure Table (g : Graph) : Prop where
  numNodes_lt : g.numNodes < 2 ^ 32
  index_eq : ∀ k, k < g.numNodes → (g.node k).index = BitVec.ofNat 32 k
  mem_buckets : ∀ bucket k, k ∈ g.buckets bucket ↔
    k < g.numNodes ∧ entityHashBucket (g.node k).entity = bucket
  entity_injective : ∀ k l, k < g.numNodes → l < g.numNodes →
    (g.node k).entity = (g.node l).entity → k = l

/-- The representations, from what is recorded. -/
structure Linked (g : Graph) (recorded : Entity → Entity → Bool) : Prop where
  symmetric : ∀ a b, recorded a b = recorded b a
  irreflexive : ∀ a, recorded a a = false
  contained : ∀ a b, recorded a b = true → g.Contains a
  count_eq : ∀ k l, k < g.numNodes → (g.node k).adjList.count l =
    (decide (l < g.numNodes) && recorded (g.node k).entity (g.node l).entity).toNat
  degree_eq : ∀ k, k < g.numNodes → (g.node k).degree = (g.node k).adjList.length
  matrix_iff : ∀ bit, g.matrix bit = true ↔ ∃ k l, k < l ∧ l < g.numNodes ∧
    recorded (g.node k).entity (g.node l).entity = true ∧ bit.toNat = triangular k l

/-- The nodes are those there were, with other lists and degrees. -/
structure SameNodes (g g' : Graph) : Prop where
  numNodes : g'.numNodes = g.numNodes
  buckets : g'.buckets = g.buckets
  entity : ∀ k, (g'.node k).entity = (g.node k).entity
  index : ∀ k, (g'.node k).index = (g.node k).index

namespace SameNodes

variable {g g' g'' : Graph}

theorem trans (h : SameNodes g g') (h' : SameNodes g' g'') : SameNodes g g'' where
  numNodes := h'.numNodes.trans h.numNodes
  buckets := h'.buckets.trans h.buckets
  entity k := (h'.entity k).trans (h.entity k)
  index k := (h'.index k).trans (h.index k)

theorem modify (h : SameNodes g g') (igNode : ℕ) {f : IGNode → IGNode}
    (hentity : ∀ n, (f n).entity = n.entity) (hindex : ∀ n, (f n).index = n.index) :
    SameNodes g (g'.modify igNode f) := by
  refine h.trans ⟨rfl, rfl, fun k => ?_, fun k => ?_⟩
  · by_cases hk : k = igNode
    · subst hk
      simp [Graph.modify, hentity]
    · simp [Graph.modify, hk]
  · by_cases hk : k = igNode
    · subst hk
      simp [Graph.modify, hindex]
    · simp [Graph.modify, hk]

theorem setBit (h : SameNodes g g') (bit : BitVec 64) (value : Bool) :
    SameNodes g (g'.setBit bit value) :=
  h.trans ⟨rfl, rfl, fun _ => rfl, fun _ => rfl⟩

theorem refl (g : Graph) : SameNodes g g := ⟨rfl, rfl, fun _ => rfl, fun _ => rfl⟩

theorem pairBit (h : SameNodes g g') (k l : ℕ) : g'.pairBit k l = g.pairBit k l := by
  rw [Graph.pairBit, Graph.pairBit, h.index, h.index]

theorem addInterferenceBetween (g : Graph) (k₁ k₂ : ℕ) :
    SameNodes g (g.addInterferenceBetween k₁ k₂) := by
  simp only [Graph.addInterferenceBetween]
  split
  · refine modify (modify (modify (modify (setBit (refl g) _ _) _ ?_ ?_) _ ?_ ?_) _ ?_ ?_) _ ?_ ?_
    all_goals exact fun _ => rfl
  · exact refl g

theorem removeInterferenceBetween (g : Graph) (k₁ k₂ : ℕ) :
    SameNodes g (g.removeInterferenceBetween k₁ k₂) := by
  refine setBit (modify (modify (modify (modify (refl g) _ ?_ ?_) _ ?_ ?_) _ ?_ ?_) _ ?_ ?_) _ _
  all_goals exact fun _ => rfl

theorem removeFrom (g : Graph) (igNode cursor : ℕ) :
    SameNodes g (Graph.removeFrom igNode g cursor) := by
  refine setBit (modify (modify (refl g) _ ?_ ?_) _ ?_ ?_) _ _
  all_goals exact fun _ => rfl

end SameNodes

namespace Table

variable {g g' : Graph} {k l : ℕ}

/-- Changes of the lists, degrees and bits do not matter to the table. -/
theorem congr (h : Table g) (hsame : SameNodes g g') : Table g' where
  numNodes_lt := hsame.numNodes ▸ h.numNodes_lt
  index_eq k hk := by
    rw [hsame.index]
    exact h.index_eq k (hsame.numNodes ▸ hk)
  mem_buckets bucket k := by
    rw [hsame.buckets, hsame.numNodes, hsame.entity]
    exact h.mem_buckets bucket k
  entity_injective k l hk hl := by
    rw [hsame.entity, hsame.entity]
    exact h.entity_injective k l (hsame.numNodes ▸ hk) (hsame.numNodes ▸ hl)

theorem getIGNodeForEntity_eq (h : Table g) {entity : Entity} :
    g.getIGNodeForEntity entity = some k ↔ k < g.numNodes ∧ (g.node k).entity = entity := by
  constructor
  · intro hfind
    have hentity := List.find?_some hfind
    exact ⟨((h.mem_buckets _ k).1 (List.mem_of_find?_eq_some hfind)).1, by simpa using hentity⟩
  · rintro ⟨hk, rfl⟩
    have hmem := (h.mem_buckets _ k).2 ⟨hk, rfl⟩
    cases hfind : g.getIGNodeForEntity (g.node k).entity with
    | none =>
      have hnone := List.find?_eq_none.1 hfind k hmem
      simp at hnone
    | some l =>
      have hentity := List.find?_some hfind
      have hl := ((h.mem_buckets _ l).1 (List.mem_of_find?_eq_some hfind)).1
      rw [h.entity_injective l k hl hk (by simpa using hentity)]

theorem exists_node (h : Table g) {entity : Entity} (hmem : g.Contains entity) :
    ∃ k, g.getIGNodeForEntity entity = some k ∧ k < g.numNodes ∧ (g.node k).entity = entity := by
  obtain ⟨k, hk, hentity⟩ := hmem
  exact ⟨k, h.getIGNodeForEntity_eq.2 ⟨hk, hentity⟩, hk, hentity⟩

theorem toNat_pairBit (h : Table g) (hk : k < g.numNodes) (hl : l < g.numNodes) :
    (g.pairBit k l).toNat = triangular (min k l) (max k l) := by
  have hlt := h.numNodes_lt
  rw [Graph.pairBit, h.index_eq k hk, h.index_eq l hl, toNat_getNodePairToBVIndex,
    BitVec.toNat_ofNat, BitVec.toNat_ofNat, Nat.mod_eq_of_lt (by omega),
    Nat.mod_eq_of_lt (by omega)]

theorem entity_eq_iff (h : Table g) (hk : k < g.numNodes) (hl : l < g.numNodes) :
    (g.node k).entity = (g.node l).entity ↔ k = l :=
  ⟨h.entity_injective k l hk hl, fun heq => heq ▸ rfl⟩

end Table

namespace Linked

variable {g : Graph} {recorded : Entity → Entity → Bool} {k l : ℕ}

theorem mem_adjList (h : Linked g recorded) (hk : k < g.numNodes) :
    l ∈ (g.node k).adjList ↔
      l < g.numNodes ∧ recorded (g.node k).entity (g.node l).entity = true := by
  rw [← List.count_pos_iff, h.count_eq k l hk]
  by_cases hl : l < g.numNodes <;>
    cases recorded (g.node k).entity (g.node l).entity <;> simp [hl]

/-- The bit of two distinct nodes says whether they interfere. -/
theorem matrix_pairBit (h : Linked g recorded) (htable : Table g) (hk : k < g.numNodes)
    (hl : l < g.numNodes) (hne : k ≠ l) :
    g.matrix (g.pairBit k l) = recorded (g.node k).entity (g.node l).entity := by
  rw [Bool.eq_iff_iff, h.matrix_iff, htable.toNat_pairBit hk hl]
  constructor
  · rintro ⟨i, j, hij, hj, hrec, heq⟩
    obtain ⟨rfl, rfl⟩ := triangular_injective (by omega) hij heq
    obtain hlt | hgt := Nat.lt_or_gt_of_ne hne
    · rwa [min_eq_left hlt.le, max_eq_right hlt.le] at hrec
    · rwa [min_eq_right hgt.le, max_eq_left hgt.le, h.symmetric] at hrec
  · intro hrec
    obtain hlt | hgt := Nat.lt_or_gt_of_ne hne
    · exact ⟨k, l, hlt, hl, hrec, by rw [min_eq_left hlt.le, max_eq_right hlt.le]⟩
    · refine ⟨l, k, hgt, hk, ?_, by rw [min_eq_right hgt.le, max_eq_left hgt.le]⟩
      rwa [h.symmetric]

/-- The bit of a node with itself is that of the first node and the next one. -/
theorem matrix_pairBit_self (h : Linked g recorded) (htable : Table g) (hk : k < g.numNodes) :
    g.matrix (g.pairBit k k) = true ↔ k + 1 ∈ (g.node 0).adjList := by
  rw [h.mem_adjList (Nat.zero_lt_of_lt hk), h.matrix_iff, htable.toNat_pairBit hk hk, min_self,
    max_self, triangular_self]
  constructor
  · rintro ⟨i, j, hij, hj, hrec, heq⟩
    obtain ⟨rfl, rfl⟩ := triangular_injective (Nat.succ_pos k) hij heq
    exact ⟨hj, hrec⟩
  · rintro ⟨hlt, hrec⟩
    exact ⟨0, k + 1, Nat.succ_pos k, hlt, hrec, rfl⟩

end Linked

section Pairs

variable {g : Graph} {recorded : Entity → Entity → Bool} {a b x y : Entity} {k₁ k₂ i j : ℕ}

theorem samePair_iff : samePair a b x y = true ↔ x = a ∧ y = b ∨ x = b ∧ y = a := by
  rw [samePair, decide_eq_true_iff]

theorem samePair_comm : samePair a b x y = samePair a b y x := by
  rw [Bool.eq_iff_iff, samePair_iff, samePair_iff]
  tauto

/-- Two pairs of entities are the same when their bits are. -/
theorem Table.samePair_iff_bit (h : Table g) (hk₁ : k₁ < g.numNodes) (hk₂ : k₂ < g.numNodes)
    (hne : k₁ ≠ k₂) (hij : i < j) (hj : j < g.numNodes) :
    samePair (g.node k₁).entity (g.node k₂).entity (g.node i).entity (g.node j).entity = true ↔
      (g.pairBit k₁ k₂).toNat = triangular i j := by
  rw [samePair_iff, h.toNat_pairBit hk₁ hk₂, h.entity_eq_iff (hij.trans hj) hk₁,
    h.entity_eq_iff hj hk₂, h.entity_eq_iff (hij.trans hj) hk₂, h.entity_eq_iff hj hk₁]
  constructor
  · rintro (⟨rfl, rfl⟩ | ⟨rfl, rfl⟩)
    · rw [min_eq_left hij.le, max_eq_right hij.le]
    · rw [min_eq_right hij.le, max_eq_left hij.le]
  · intro heq
    obtain ⟨hmin, hmax⟩ := triangular_injective (by omega) hij heq
    omega

/-- The smaller and the larger of two nodes, for their bit. -/
theorem Table.exists_ordered (h : Table g) (hk₁ : k₁ < g.numNodes) (hk₂ : k₂ < g.numNodes)
    (hne : k₁ ≠ k₂) : ∃ i j, i < j ∧ j < g.numNodes ∧
      samePair (g.node k₁).entity (g.node k₂).entity (g.node i).entity (g.node j).entity = true ∧
      (g.pairBit k₁ k₂).toNat = triangular i j := by
  have hbit := h.toNat_pairBit hk₁ hk₂
  refine ⟨min k₁ k₂, max k₁ k₂, by omega, by omega, ?_, hbit⟩
  exact (h.samePair_iff_bit hk₁ hk₂ hne (by omega) (by omega)).2 hbit

end Pairs

namespace Graph

variable {g : Graph} {k₁ k₂ k m : ℕ}

theorem modify_node (f : IGNode → IGNode) :
    (g.modify k f).node m = if m = k then f (g.node k) else g.node m := by
  simp only [modify, Function.update_apply]

theorem addInterferenceBetween_node (hne : k₁ ≠ k₂) (hbit : g.matrix (g.pairBit k₁ k₂) = false) :
    (g.addInterferenceBetween k₁ k₂).node m =
      if m = k₁ then
        { g.node k₁ with adjList := k₂ :: (g.node k₁).adjList, degree := (g.node k₁).degree + 1 }
      else if m = k₂ then
        { g.node k₂ with adjList := k₁ :: (g.node k₂).adjList, degree := (g.node k₂).degree + 1 }
      else g.node m := by
  unfold addInterferenceBetween
  rw [if_pos ⟨hne, by simp [hbit]⟩]
  simp only [modify_node, setBit]
  by_cases h1 : m = k₁
  · simp [h1, hne]
  · by_cases h2 : m = k₂ <;> simp [h1, h2, Ne.symm hne]

theorem addInterferenceBetween_matrix (hne : k₁ ≠ k₂)
    (hbit : g.matrix (g.pairBit k₁ k₂) = false) :
    (g.addInterferenceBetween k₁ k₂).matrix = Function.update g.matrix (g.pairBit k₁ k₂) true := by
  unfold addInterferenceBetween
  rw [if_pos ⟨hne, by simp [hbit]⟩]
  rfl

theorem removeInterferenceBetween_node (hne : k₁ ≠ k₂) :
    (g.removeInterferenceBetween k₁ k₂).node m =
      if m = k₁ then { g.node k₁ with
        adjList := (g.node k₁).adjList.erase k₂, degree := (g.node k₁).degree - 1 }
      else if m = k₂ then { g.node k₂ with
        adjList := (g.node k₂).adjList.erase k₁, degree := (g.node k₂).degree - 1 }
      else g.node m := by
  simp only [removeInterferenceBetween, modify_node, setBit]
  by_cases h1 : m = k₁
  · simp [h1, hne]
  · by_cases h2 : m = k₂ <;> simp [h1, h2, Ne.symm hne]

theorem removeInterferenceBetween_matrix (hne : k₁ ≠ k₂) :
    (g.removeInterferenceBetween k₁ k₂).matrix =
      Function.update g.matrix (g.pairBit k₁ k₂) false := by
  simp [removeInterferenceBetween, setBit, pairBit, modify, hne, Ne.symm hne]

end Graph

section Edges

variable {g : Graph} {recorded : Entity → Entity → Bool} {k₁ k₂ : ℕ}

/-- A pair that is recorded already changes nothing. -/
theorem recordPair_eq_self {a b : Entity} (hsymm : ∀ a b, recorded a b = recorded b a)
    (h : a = b ∨ recorded a b = true) : recordPair recorded a b = recorded := by
  funext x y
  obtain rfl | h := h
  · simp [recordPair]
  · by_cases hsame : samePair a b x y = true
    · have hrec : recorded x y = true := by
        obtain ⟨rfl, rfl⟩ | ⟨rfl, rfl⟩ := samePair_iff.1 hsame
        · exact h
        · rwa [hsymm]
      rw [recordPair, hrec, Bool.true_or]
    · rw [Bool.not_eq_true] at hsame
      rw [recordPair, hsame, Bool.and_false, Bool.or_false]

/-- The bits after a pair has been added. -/
theorem Linked.matrix_record (h : Linked g recorded) (htable : Table g) (hk₁ : k₁ < g.numNodes)
    (hk₂ : k₂ < g.numNodes) (hne : k₁ ≠ k₂) (bit : BitVec 64) :
    Function.update g.matrix (g.pairBit k₁ k₂) true bit = true ↔
      ∃ i j, i < j ∧ j < g.numNodes ∧
        recordPair recorded (g.node k₁).entity (g.node k₂).entity (g.node i).entity
          (g.node j).entity = true ∧ bit.toNat = triangular i j := by
  have hentity : (g.node k₁).entity ≠ (g.node k₂).entity :=
    fun heq => hne (htable.entity_injective k₁ k₂ hk₁ hk₂ heq)
  simp only [recordPair, ne_eq, hentity, not_false_eq_true, decide_true, Bool.true_and,
    Bool.or_eq_true]
  rw [Function.update_apply]
  split
  · next heq =>
    subst heq
    obtain ⟨i, j, hij, hj, hsame, hbit⟩ := htable.exists_ordered hk₁ hk₂ hne
    exact ⟨fun _ => ⟨i, j, hij, hj, .inr hsame, hbit⟩, fun _ => rfl⟩
  · next hdiff =>
    rw [h.matrix_iff]
    constructor
    · rintro ⟨i, j, hij, hj, hrec, hbit⟩
      exact ⟨i, j, hij, hj, .inl hrec, hbit⟩
    · rintro ⟨i, j, hij, hj, hrec | hsame, hbit⟩
      · exact ⟨i, j, hij, hj, hrec, hbit⟩
      · rw [htable.samePair_iff_bit hk₁ hk₂ hne hij hj, ← hbit] at hsame
        exact absurd (BitVec.eq_of_toNat_eq hsame).symm hdiff

/-- The bits after a pair has been removed. -/
theorem Linked.matrix_erase (h : Linked g recorded) (htable : Table g) (hk₁ : k₁ < g.numNodes)
    (hk₂ : k₂ < g.numNodes) (hne : k₁ ≠ k₂) (bit : BitVec 64) :
    Function.update g.matrix (g.pairBit k₁ k₂) false bit = true ↔
      ∃ i j, i < j ∧ j < g.numNodes ∧
        erasePair recorded (g.node k₁).entity (g.node k₂).entity (g.node i).entity
          (g.node j).entity = true ∧ bit.toNat = triangular i j := by
  simp only [erasePair, Bool.and_eq_true, Bool.not_eq_true']
  rw [Function.update_apply]
  split
  · next heq =>
    subst heq
    refine ⟨fun hfalse => (by cases hfalse), ?_⟩
    rintro ⟨i, j, hij, hj, ⟨-, hsame⟩, hbit⟩
    rw [(htable.samePair_iff_bit hk₁ hk₂ hne hij hj).2 hbit] at hsame
    cases hsame
  · next hdiff =>
    rw [h.matrix_iff]
    constructor
    · rintro ⟨i, j, hij, hj, hrec, hbit⟩
      refine ⟨i, j, hij, hj, ⟨hrec, ?_⟩, hbit⟩
      rw [← Bool.not_eq_true, htable.samePair_iff_bit hk₁ hk₂ hne hij hj, ← hbit]
      exact fun heq => hdiff (BitVec.eq_of_toNat_eq heq).symm
    · rintro ⟨i, j, hij, hj, ⟨hrec, -⟩, hbit⟩
      exact ⟨i, j, hij, hj, hrec, hbit⟩

/-- The pair of two nodes, seen from the first one of a list. -/
theorem Table.samePair_nodes (h : Table g) (hk₁ : k₁ < g.numNodes) (hk₂ : k₂ < g.numNodes)
    {k l : ℕ} (hk : k < g.numNodes) (hl : l < g.numNodes) :
    samePair (g.node k₁).entity (g.node k₂).entity (g.node k).entity (g.node l).entity =
      decide (k = k₁ ∧ l = k₂ ∨ k = k₂ ∧ l = k₁) := by
  rw [Bool.eq_iff_iff, samePair_iff, decide_eq_true_iff, h.entity_eq_iff hk hk₁,
    h.entity_eq_iff hl hk₂, h.entity_eq_iff hk hk₂, h.entity_eq_iff hl hk₁]

theorem Linked.addInterferenceBetween (h : Linked g recorded) (htable : Table g)
    (hk₁ : k₁ < g.numNodes) (hk₂ : k₂ < g.numNodes) :
    Table (g.addInterferenceBetween k₁ k₂) ∧ Linked (g.addInterferenceBetween k₁ k₂)
      (recordPair recorded (g.node k₁).entity (g.node k₂).entity) := by
  by_cases hnew : k₁ ≠ k₂ ∧ g.matrix (g.pairBit k₁ k₂) = false
  · obtain ⟨hne, hbit⟩ := hnew
    have hunrecorded := hbit
    rw [h.matrix_pairBit htable hk₁ hk₂ hne] at hunrecorded
    have hmatrix := Graph.addInterferenceBetween_matrix hne hbit
    have hsame := SameNodes.addInterferenceBetween g k₁ k₂
    have hnum := hsame.numNodes
    have hentity := hsame.entity
    have hentities : (g.node k₁).entity ≠ (g.node k₂).entity :=
      fun heq => hne (htable.entity_injective k₁ k₂ hk₁ hk₂ heq)
    refine ⟨htable.congr hsame, ?_, ?_, ?_, ?_, ?_, ?_⟩
    · intro a b
      rw [recordPair, recordPair, h.symmetric a b, samePair_comm]
    · intro a
      rw [recordPair, h.irreflexive, Bool.false_or, Bool.and_eq_false_iff]
      by_cases hsame : samePair (g.node k₁).entity (g.node k₂).entity a a = true
      · obtain ⟨rfl, heq⟩ | ⟨rfl, heq⟩ := samePair_iff.1 hsame
        · exact absurd heq hentities
        · exact absurd heq.symm hentities
      · exact .inr (by simpa using hsame)
    · intro a b hab
      simp only [Graph.Contains, hnum, hentity]
      rw [recordPair, Bool.or_eq_true, Bool.and_eq_true, samePair_iff] at hab
      obtain hab | ⟨-, ⟨rfl, -⟩ | ⟨rfl, -⟩⟩ := hab
      · exact h.contained a b hab
      · exact ⟨k₁, hk₁, rfl⟩
      · exact ⟨k₂, hk₂, rfl⟩
    · intro k l hk
      rw [hnum] at hk
      rw [hnum, hentity, hentity, Graph.addInterferenceBetween_node hne hbit]
      have hcount := h.count_eq k l hk
      by_cases hl : l < g.numNodes
      · rw [recordPair, htable.samePair_nodes hk₁ hk₂ hk hl]
        simp only [hl, decide_true, Bool.true_and, ne_eq, hentities, not_false_eq_true] at hcount ⊢
        split_ifs with h1 h2
        · subst h1
          rw [List.count_cons, hcount]
          by_cases hl2 : l = k₂
          · subst hl2
            simp [hunrecorded]
          · simp [hl2, Ne.symm hl2, hne]
        · subst h2
          rw [List.count_cons, hcount]
          by_cases hl1 : l = k₁
          · subst hl1
            rw [h.symmetric] at hunrecorded
            simp [hunrecorded]
          · simp [hl1, Ne.symm hl1, h1]
        · simp [hcount, h1, h2]
      · have hl1 : k₁ ≠ l := fun heq => hl (heq ▸ hk₁)
        have hl2 : k₂ ≠ l := fun heq => hl (heq ▸ hk₂)
        simp only [hl, decide_false, Bool.false_and, Bool.toNat_false] at hcount ⊢
        split_ifs with h1 h2
        · rwa [List.count_cons_of_ne hl2, ← h1]
        · rwa [List.count_cons_of_ne hl1, ← h2]
        · exact hcount
    · intro k hk
      rw [hnum] at hk
      rw [Graph.addInterferenceBetween_node hne hbit]
      split_ifs with h1 h2
      · exact congrArg Nat.succ (h.degree_eq k₁ hk₁)
      · exact congrArg Nat.succ (h.degree_eq k₂ hk₂)
      · exact h.degree_eq k hk
    · intro bit
      rw [hmatrix, hnum]
      simp only [hentity]
      exact h.matrix_record htable hk₁ hk₂ hne bit
  · have hsame : g.addInterferenceBetween k₁ k₂ = g := by
      unfold Graph.addInterferenceBetween
      rw [if_neg fun hc => hnew ⟨hc.1, by simpa using hc.2⟩]
    have hrec : recordPair recorded (g.node k₁).entity (g.node k₂).entity = recorded := by
      apply recordPair_eq_self h.symmetric
      by_cases hne : k₁ = k₂
      · exact .inl (congrArg (fun k => (g.node k).entity) hne)
      · refine .inr ?_
        rw [← h.matrix_pairBit htable hk₁ hk₂ hne]
        simpa [hne] using hnew
    rw [hsame, hrec]
    exact ⟨htable, h⟩

theorem Linked.removeInterferenceBetween (h : Linked g recorded) (htable : Table g)
    (hk₁ : k₁ < g.numNodes) (hk₂ : k₂ < g.numNodes)
    (hrec : recorded (g.node k₁).entity (g.node k₂).entity = true) :
    Linked (g.removeInterferenceBetween k₁ k₂)
      (erasePair recorded (g.node k₁).entity (g.node k₂).entity) := by
  have hne : k₁ ≠ k₂ := by
    rintro rfl
    rw [h.irreflexive] at hrec
    cases hrec
  have hrec' := hrec
  rw [h.symmetric] at hrec'
  have hmem₁ : k₂ ∈ (g.node k₁).adjList := (h.mem_adjList hk₁).2 ⟨hk₂, hrec⟩
  have hmem₂ : k₁ ∈ (g.node k₂).adjList := (h.mem_adjList hk₂).2 ⟨hk₁, hrec'⟩
  have hsame := SameNodes.removeInterferenceBetween g k₁ k₂
  have hnum := hsame.numNodes
  have hentity := hsame.entity
  refine ⟨?_, ?_, ?_, ?_, ?_, ?_⟩
  · intro a b
    rw [erasePair, erasePair, h.symmetric a b, samePair_comm]
  · intro a
    rw [erasePair, h.irreflexive, Bool.false_and]
  · intro a b hab
    simp only [Graph.Contains, hnum, hentity]
    rw [erasePair, Bool.and_eq_true] at hab
    exact h.contained a b hab.1
  · intro k l hk
    rw [hnum] at hk
    rw [hnum, hentity, hentity, Graph.removeInterferenceBetween_node hne]
    have hcount := h.count_eq k l hk
    by_cases hl : l < g.numNodes
    · rw [erasePair, htable.samePair_nodes hk₁ hk₂ hk hl]
      simp only [hl, decide_true, Bool.true_and] at hcount ⊢
      split_ifs with h1 h2
      · subst h1
        rw [List.count_erase, hcount]
        by_cases hl2 : l = k₂
        · subst hl2
          simp [hrec]
        · simp [hl2, hne, Ne.symm hl2]
      · subst h2
        rw [List.count_erase, hcount]
        by_cases hl1 : l = k₁
        · subst hl1
          simp [hrec']
        · simp [hl1, h1, Ne.symm hl1]
      · simp [hcount, h1, h2]
    · simp only [hl, decide_false, Bool.false_and, Bool.toNat_false] at hcount ⊢
      split_ifs with h1 h2
      · rw [← h1, List.count_erase, hcount, Nat.zero_sub]
      · rw [← h2, List.count_erase, hcount, Nat.zero_sub]
      · exact hcount
  · intro k hk
    rw [hnum] at hk
    rw [Graph.removeInterferenceBetween_node hne]
    split_ifs with h1 h2
    · simp only
      rw [List.length_erase_of_mem hmem₁, h.degree_eq k₁ hk₁]
    · simp only
      rw [List.length_erase_of_mem hmem₂, h.degree_eq k₂ hk₂]
    · exact h.degree_eq k hk
  · intro bit
    rw [Graph.removeInterferenceBetween_matrix hne, hnum]
    simp only [hentity]
    exact h.matrix_erase htable hk₁ hk₂ hne bit

end Edges

end OMR.Compiler.InterferenceGraph
