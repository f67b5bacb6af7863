import OMR.Compiler.InterferenceGraphInvariant

/-!
# Runs of an interference graph

What has been recorded stands beside the graph as a relation on entities. All three
representations follow it as long as no node loses all its interferences at once, which
clears the wrong bits.
-/

namespace OMR.Compiler.InterferenceGraph

open OMR.Lib

/-- A graph with the interferences that its callers have asked for. -/
structure System where
  graph : Graph
  recorded : Entity → Entity → Bool

inductive Op where
  | add (entity : Entity) (ignoreDuplicates : Bool)
  | addInterferenceBetween (entity1 entity2 : Entity)
  | removeInterferenceBetween (entity1 entity2 : Entity)
  | removeAllInterferences (entity : Entity)
  | hasInterference (entity1 entity2 : Entity)

namespace System

def initialState : System := ⟨.initialized, fun _ _ => false⟩

/-- An operation finds the nodes of its entities and changes the graph. -/
def exec (s : System) : Op → Option System
  | .add entity ignoreDuplicates => some { s with graph := s.graph.add entity ignoreDuplicates }
  | .addInterferenceBetween entity1 entity2 =>
    (s.graph.getIGNodeForEntity entity1).bind fun igNode1 =>
      (s.graph.getIGNodeForEntity entity2).map fun igNode2 =>
        ⟨s.graph.addInterferenceBetween igNode1 igNode2, recordPair s.recorded entity1 entity2⟩
  | .removeInterferenceBetween entity1 entity2 =>
    (s.graph.getIGNodeForEntity entity1).bind fun igNode1 =>
      (s.graph.getIGNodeForEntity entity2).map fun igNode2 =>
        ⟨s.graph.removeInterferenceBetween igNode1 igNode2, erasePair s.recorded entity1 entity2⟩
  | .removeAllInterferences entity =>
    (s.graph.getIGNodeForEntity entity).map fun igNode =>
      ⟨s.graph.removeAllInterferences igNode, eraseEntity s.recorded entity⟩
  | .hasInterference entity1 entity2 => (s.graph.entitiesInterfere entity1 entity2).map fun _ => s

/-- Entities are added once, up to what a 32-bit index can number, and used once added. Only
an interference that is recorded is removed. -/
def Permitted (s : System) : Op → Prop
  | .add entity _ => entity ≠ 0 ∧ ¬ s.graph.Contains entity ∧ s.graph.numNodes + 1 < 2 ^ 32
  | .addInterferenceBetween entity1 entity2 | .hasInterference entity1 entity2 =>
    s.graph.Contains entity1 ∧ s.graph.Contains entity2
  | .removeInterferenceBetween entity1 entity2 =>
    s.graph.Contains entity1 ∧ s.graph.Contains entity2 ∧ s.recorded entity1 entity2 = true
  | .removeAllInterferences entity => s.graph.Contains entity

instance (s : System) : ∀ op, Decidable (Permitted s op)
  | .add .. | .addInterferenceBetween .. | .removeInterferenceBetween .. |
    .removeAllInterferences _ | .hasInterference .. => by unfold Permitted; infer_instance

/-- The three representations agree with each other and with what is recorded. -/
structure Represents (s : System) : Prop where
  listed_once : ∀ k l, k < s.graph.numNodes → l < s.graph.numNodes → k ≠ l →
    (s.graph.node k).adjList.count l = (s.graph.matrix (s.graph.pairBit k l)).toNat
  degree_eq : ∀ k, k < s.graph.numNodes →
    (s.graph.node k).degree = (s.graph.node k).adjList.length
  hasInterference_eq : ∀ k l, k < s.graph.numNodes → l < s.graph.numNodes → k ≠ l →
    s.graph.hasInterference k l = s.recorded (s.graph.node k).entity (s.graph.node l).entity

instance (s : System) : Decidable (Represents s) :=
  decidable_of_iff
    ((∀ k < s.graph.numNodes, ∀ l < s.graph.numNodes, k ≠ l →
      (s.graph.node k).adjList.count l = (s.graph.matrix (s.graph.pairBit k l)).toNat) ∧
    (∀ k < s.graph.numNodes, (s.graph.node k).degree = (s.graph.node k).adjList.length) ∧
    ∀ k < s.graph.numNodes, ∀ l < s.graph.numNodes, k ≠ l →
      s.graph.hasInterference k l = s.recorded (s.graph.node k).entity (s.graph.node l).entity)
    ⟨fun ⟨hlisted, hdegree, hhas⟩ =>
        ⟨fun k l hk hl => hlisted k hk l hl, hdegree, fun k l hk hl => hhas k hk l hl⟩,
      fun h => ⟨fun k hk l hl => h.listed_once k l hk hl, h.degree_eq,
        fun k hk l hl => h.hasInterference_eq k l hk hl⟩⟩

/-- A question is answered as recorded. -/
def Answered (s : System) : Op → Prop
  | .hasInterference entity1 entity2 =>
    s.graph.entitiesInterfere entity1 entity2 = some (s.recorded entity1 entity2)
  | _ => True

instance (s : System) : ∀ op, Decidable (Answered s op)
  | .add .. | .addInterferenceBetween .. | .removeInterferenceBetween .. |
    .removeAllInterferences _ => isTrue trivial
  | .hasInterference .. => inferInstanceAs (Decidable (_ = _))

/-- What an operation leaves is represented, and a question is answered as recorded. -/
def Kept (s : System) (op : Op) (s' : System) : Prop := Represents s' ∧ Answered s op

instance (s : System) (op : Op) (s' : System) : Decidable (Kept s op s') :=
  inferInstanceAs (Decidable (_ ∧ _))

/-- A node loses all its interferences when it has none or is the first one and has one with
the second only. An entity is not compared with itself while the first node interferes with
the one after that of the entity. -/
def Meets (s : System) : Op → Prop
  | .removeAllInterferences entity => ∀ k ∈ s.graph.getIGNodeForEntity entity,
    (s.graph.node k).adjList = [] ∨ k = 0 ∧ (s.graph.node k).adjList = [1]
  | .hasInterference entity1 entity2 => entity1 = entity2 →
    ∀ k ∈ s.graph.getIGNodeForEntity entity1, k + 1 ∉ (s.graph.node 0).adjList
  | _ => True

instance (s : System) : ∀ op, Decidable (Meets s op)
  | .add .. | .addInterferenceBetween .. | .removeInterferenceBetween .. => isTrue trivial
  | .removeAllInterferences _ | .hasInterference .. => by unfold Meets; infer_instance

end System

section AllInterferences

variable {g : Graph} {recorded : Entity → Entity → Bool} {k : ℕ}

/-- What the loop of `removeAllInterferences` has done to the nodes. -/
theorem removeFrom_foldl_node (igNode : ℕ) {cursors : List ℕ} (hnodup : cursors.Nodup) (g : Graph)
    (m : ℕ) : (cursors.foldl (Graph.removeFrom igNode) g).node m =
      if m ∈ cursors then { g.node m with
        adjList := (g.node m).adjList.erase igNode, degree := (g.node m).degree - 1 }
      else g.node m := by
  induction cursors generalizing g with
  | nil => simp
  | cons cursor cursors ih =>
    obtain ⟨hnot, hnodup⟩ := List.nodup_cons.1 hnodup
    rw [List.foldl_cons, ih hnodup]
    by_cases hm : m = cursor
    · subst hm
      simp [hnot, Graph.removeFrom, Graph.setBit, Graph.modify]
    · simp [hm, Graph.removeFrom, Graph.setBit, Graph.modify]

theorem removeFrom_foldl_same (igNode : ℕ) (cursors : List ℕ) (g : Graph) :
    SameNodes g (cursors.foldl (Graph.removeFrom igNode) g) := by
  induction cursors generalizing g with
  | nil => exact SameNodes.refl g
  | cons cursor cursors ih => exact (SameNodes.removeFrom g igNode cursor).trans (ih _)

/-- Every round resets the same bit. -/
theorem removeFrom_foldl_matrix (igNode : ℕ) (cursors : List ℕ) (g : Graph) :
    (cursors.foldl (Graph.removeFrom igNode) g).matrix =
      if cursors = [] then g.matrix
      else Function.update g.matrix (g.pairBit igNode igNode) false := by
  induction cursors generalizing g with
  | nil => rfl
  | cons cursor cursors ih =>
    have hsame := SameNodes.removeFrom g igNode cursor
    rw [List.foldl_cons, ih, hsame.pairBit, if_neg (List.cons_ne_nil _ _)]
    have hmatrix : (Graph.removeFrom igNode g cursor).matrix =
        Function.update g.matrix (g.pairBit igNode igNode) false := by
      simp only [Graph.removeFrom, Graph.setBit]
      congr 1
      refine SameNodes.pairBit
        (SameNodes.modify (SameNodes.modify (SameNodes.refl g) _ ?_ ?_) _ ?_ ?_) _ _
      all_goals exact fun _ => rfl
    rw [hmatrix]
    split
    · rfl
    · exact Function.update_idem ..

theorem removeAllInterferences_same (g : Graph) (k : ℕ) :
    SameNodes g (g.removeAllInterferences k) := by
  have hloop := removeFrom_foldl_same k (g.node k).adjList g
  simp only [Graph.removeAllInterferences]
  refine SameNodes.modify (SameNodes.modify hloop _ ?_ ?_) _ ?_ ?_
  all_goals exact fun _ => rfl

theorem removeAllInterferences_matrix (g : Graph) (k : ℕ) :
    (g.removeAllInterferences k).matrix =
      if (g.node k).adjList = [] then g.matrix
      else Function.update g.matrix (g.pairBit k k) false :=
  removeFrom_foldl_matrix k _ g

namespace Linked

theorem nodup_adjList (h : Linked g recorded) (hk : k < g.numNodes) :
    (g.node k).adjList.Nodup := by
  rw [List.nodup_iff_count_le_one]
  intro l
  rw [h.count_eq k l hk]
  exact Bool.toNat_le _

theorem notMem_self (h : Linked g recorded) (hk : k < g.numNodes) : k ∉ (g.node k).adjList := by
  rw [h.mem_adjList hk, h.irreflexive]
  simp

theorem mem_comm (h : Linked g recorded) {m : ℕ} (hk : k < g.numNodes) (hm : m < g.numNodes) :
    m ∈ (g.node k).adjList ↔ k ∈ (g.node m).adjList := by
  rw [h.mem_adjList hk, h.mem_adjList hm, h.symmetric]
  exact ⟨fun hr => ⟨hk, hr.2⟩, fun hr => ⟨hm, hr.2⟩⟩

/-- The node loses its list and is taken off the list of every other node. -/
theorem removeAll_adjList (h : Linked g recorded) (hk : k < g.numNodes) {m : ℕ}
    (hm : m < g.numNodes) : ((g.removeAllInterferences k).node m).adjList =
      if m = k then [] else (g.node m).adjList.erase k := by
  simp only [Graph.removeAllInterferences, Graph.modify_node,
    removeFrom_foldl_node k (h.nodup_adjList hk)]
  by_cases h1 : m = k
  · simp [h1]
  · by_cases h2 : m ∈ (g.node k).adjList
    · simp [h1, h2]
    · simp [h1, h2, List.erase_of_not_mem fun hmem => h2 ((h.mem_comm hk hm).2 hmem)]

theorem removeAll_degree (h : Linked g recorded) (hk : k < g.numNodes) {m : ℕ}
    (hm : m < g.numNodes) : ((g.removeAllInterferences k).node m).degree =
      ((g.removeAllInterferences k).node m).adjList.length := by
  rw [h.removeAll_adjList hk hm]
  simp only [Graph.removeAllInterferences, Graph.modify_node,
    removeFrom_foldl_node k (h.nodup_adjList hk)]
  by_cases h1 : m = k
  · simp [h1]
  · by_cases h2 : m ∈ (g.node k).adjList
    · simp [h1, h2, List.length_erase_of_mem ((h.mem_comm hk hm).1 h2), h.degree_eq m hm]
    · simp [h1, h2, List.erase_of_not_mem fun hmem => h2 ((h.mem_comm hk hm).2 hmem),
        h.degree_eq m hm]

/-- Lists and degrees lose the entity in any case. -/
theorem removeAll (h : Linked g recorded) (htable : Table g) (hk : k < g.numNodes)
    (hmatrix : ∀ bit, (g.removeAllInterferences k).matrix bit = true ↔
      ∃ i j, i < j ∧ j < g.numNodes ∧
        eraseEntity recorded (g.node k).entity (g.node i).entity (g.node j).entity = true ∧
        bit.toNat = triangular i j) :
    Linked (g.removeAllInterferences k) (eraseEntity recorded (g.node k).entity) := by
  have hsame := removeAllInterferences_same g k
  have hnum := hsame.numNodes
  have hentity := hsame.entity
  refine ⟨?_, ?_, ?_, ?_, ?_, ?_⟩
  · intro a b
    rw [eraseEntity, eraseEntity, h.symmetric a b]
    congr 1
    exact Bool.and_comm ..
  · intro a
    rw [eraseEntity, h.irreflexive, Bool.false_and]
  · intro a b hab
    simp only [Graph.Contains, hnum, hentity]
    rw [eraseEntity, Bool.and_eq_true] at hab
    exact h.contained a b hab.1
  · intro m l hm
    rw [hnum] at hm
    rw [hnum, hentity, hentity, h.removeAll_adjList hk hm, eraseEntity]
    split_ifs with hmk
    · simp [hmk]
    · rw [List.count_erase, h.count_eq m l hm]
      have hne : (g.node m).entity ≠ (g.node k).entity :=
        fun heq => hmk (htable.entity_injective m k hm hk heq)
      by_cases hl : l < g.numNodes
      · by_cases hlk : l = k
        · subst hlk
          have hle := Bool.toNat_le (recorded (g.node m).entity (g.node l).entity)
          simp [hl]
          omega
        · have hlne : (g.node l).entity ≠ (g.node k).entity :=
            fun heq => hlk (htable.entity_injective l k hl hk heq)
          simp [hl, hne, hlne, Ne.symm hlk]
      · simp [hl]
  · intro m hm
    rw [hnum] at hm
    exact h.removeAll_degree hk hm
  · intro bit
    rw [hmatrix, hnum]
    simp only [hentity]

/-- A node without interferences. -/
theorem eraseEntity_of_nil (h : Linked g recorded) (hk : k < g.numNodes)
    (hnil : (g.node k).adjList = []) : eraseEntity recorded (g.node k).entity = recorded := by
  have hnone (b : Entity) : recorded (g.node k).entity b = false := by
    by_contra hrec
    rw [Bool.not_eq_false] at hrec
    obtain ⟨l, hl, rfl⟩ := h.contained b _ (h.symmetric _ _ ▸ hrec)
    have hmem := (h.mem_adjList hk).2 ⟨hl, hrec⟩
    rw [hnil] at hmem
    cases hmem
  funext x y
  rw [eraseEntity]
  by_cases hx : x = (g.node k).entity
  · rw [hx, hnone, Bool.false_and]
  · by_cases hy : y = (g.node k).entity
    · rw [hy, h.symmetric, hnone, Bool.false_and]
    · simp [hx, hy]

/-- A node with one interference. -/
theorem eraseEntity_of_singleton (h : Linked g recorded) {l : ℕ}
    (hk : k < g.numNodes) (hone : (g.node k).adjList = [l]) :
    eraseEntity recorded (g.node k).entity =
      erasePair recorded (g.node k).entity (g.node l).entity := by
  have hother (b : Entity) (hrec : recorded (g.node k).entity b = true) :
      b = (g.node l).entity := by
    obtain ⟨m, hm, rfl⟩ := h.contained b _ (h.symmetric _ _ ▸ hrec)
    have hmem := (h.mem_adjList hk).2 ⟨hm, hrec⟩
    rw [hone, List.mem_singleton] at hmem
    rw [hmem]
  funext x y
  rw [eraseEntity, erasePair]
  cases hrec : recorded x y with
  | false => rfl
  | true =>
    rw [Bool.true_and, Bool.true_and, Bool.eq_iff_iff, Bool.not_eq_true', ← Bool.not_eq_true,
      samePair_iff, Bool.and_eq_true, decide_eq_true_iff, decide_eq_true_iff]
    constructor
    · rintro ⟨hx, hy⟩ (⟨rfl, -⟩ | ⟨-, rfl⟩)
      · exact hx rfl
      · exact hy rfl
    · intro hnot
      constructor
      · rintro rfl
        exact hnot (.inl ⟨rfl, hother y hrec⟩)
      · rintro rfl
        rw [h.symmetric] at hrec
        exact hnot (.inr ⟨hother x hrec, rfl⟩)

/-- Where the condition holds the bits follow too. -/
theorem removeAll_of_meets (h : Linked g recorded) (htable : Table g) (hk : k < g.numNodes)
    (hmeets : (g.node k).adjList = [] ∨ k = 0 ∧ (g.node k).adjList = [1]) :
    Linked (g.removeAllInterferences k) (eraseEntity recorded (g.node k).entity) := by
  apply h.removeAll htable hk
  intro bit
  rw [removeAllInterferences_matrix]
  obtain hnil | ⟨rfl, hone⟩ := hmeets
  · rw [if_pos hnil, h.eraseEntity_of_nil hk hnil]
    exact h.matrix_iff bit
  · have hmem : 1 ∈ (g.node 0).adjList := hone ▸ List.mem_singleton_self 1
    have h1 := ((h.mem_adjList hk).1 hmem).1
    have hbit : g.pairBit 0 0 = g.pairBit 0 1 := by
      apply BitVec.eq_of_toNat_eq
      rw [htable.toNat_pairBit hk hk, htable.toNat_pairBit hk h1]
      exact triangular_self 0
    rw [if_neg (by simp [hone]), hbit, h.eraseEntity_of_singleton hk hone]
    exact h.matrix_erase htable hk h1 zero_ne_one bit

/-- Elsewhere the bit of some interference stays set. -/
theorem exists_bit_of_not_meets (h : Linked g recorded) (htable : Table g) (hk : k < g.numNodes)
    (hnot : ¬ ((g.node k).adjList = [] ∨ k = 0 ∧ (g.node k).adjList = [1])) :
    ∃ l, l < g.numNodes ∧ k ≠ l ∧
      (g.removeAllInterferences k).matrix (g.pairBit k l) = true := by
  push Not at hnot
  obtain ⟨hne, hfirst⟩ := hnot
  obtain ⟨l, hl, hother⟩ : ∃ l ∈ (g.node k).adjList, ¬ (k = 0 ∧ l = 1) := by
    by_contra hall
    push Not at hall
    obtain ⟨l, hl⟩ := List.exists_mem_of_ne_nil _ hne
    have hk0 := (hall l hl).1
    refine hfirst hk0 ?_
    have hrep := List.eq_replicate_of_mem fun m hm => (hall m hm).2
    have hnodup := h.nodup_adjList hk
    rw [hrep, List.nodup_replicate] at hnodup
    have hpos := List.length_pos_of_mem hl
    rw [hrep, show (g.node k).adjList.length = 1 by omega]
    rfl
  obtain ⟨hlt, hrec⟩ := (h.mem_adjList hk).1 hl
  have hkl : k ≠ l := fun heq => h.notMem_self hk (heq ▸ hl)
  refine ⟨l, hlt, hkl, ?_⟩
  have hbits : g.pairBit k l ≠ g.pairBit k k := by
    intro heq
    have hnat := congrArg BitVec.toNat heq
    rw [htable.toNat_pairBit hk hlt, htable.toNat_pairBit hk hk, min_self, max_self,
      triangular_self] at hnat
    have hpair := triangular_injective (by omega) (Nat.succ_pos k) hnat
    omega
  rw [removeAllInterferences_matrix, if_neg hne, Function.update_of_ne hbits,
    h.matrix_pairBit htable hk hlt hkl]
  exact hrec

end Linked

end AllInterferences

section Adding

variable {g : Graph} {recorded : Entity → Entity → Bool} {entity : Entity}

theorem mem_addToBucket {igNode k : ℕ} {bucket : List ℕ} :
    k ∈ addToBucket igNode bucket ↔ k = igNode ∨ k ∈ bucket := by
  cases bucket with
  | nil => simp [addToBucket]
  | cons prevEntry rest =>
    simp only [addToBucket, List.mem_cons, List.mem_append, List.not_mem_nil, or_false]
    tauto

/-- A new entity gets a node without interferences. -/
theorem Table.add_eq (h : Table g) (hnew : ¬ g.Contains entity) (ignoreDuplicates : Bool) :
    g.add entity ignoreDuplicates =
      { g with
        numNodes := g.numNodes + 1
        node := Function.update g.node g.numNodes ⟨entity, BitVec.ofNat 32 g.numNodes, 0, []⟩
        buckets := Function.update g.buckets (entityHashBucket entity)
          (addToBucket g.numNodes (g.buckets (entityHashBucket entity))) } := by
  have hnone : ¬ ((g.getIGNodeForEntity entity).isSome = true ∧ ignoreDuplicates = true) := by
    rintro ⟨hsome, -⟩
    obtain ⟨k, hk⟩ := Option.isSome_iff_exists.1 hsome
    exact hnew ⟨k, h.getIGNodeForEntity_eq.1 hk⟩
  simp only [Graph.add, if_neg hnone, Graph.addIGNodeToEntityHash, Graph.modify,
    Function.update_self, Function.update_idem]

theorem Table.add (h : Table g) (hnew : ¬ g.Contains entity) (hroom : g.numNodes + 1 < 2 ^ 32)
    (ignoreDuplicates : Bool) : Table (g.add entity ignoreDuplicates) := by
  rw [h.add_eq hnew]
  have hold {k : ℕ} (hk : k < g.numNodes + 1) (hne : k ≠ g.numNodes) : k < g.numNodes := by omega
  refine ⟨hroom, fun k hk => ?_, fun bucket k => ?_, fun k l hk hl heq => ?_⟩
  · by_cases hkn : k = g.numNodes
    · simp [hkn]
    · simp only [Function.update_of_ne hkn]
      exact h.index_eq k (hold hk hkn)
  · have hmem : k ∈ Function.update g.buckets (entityHashBucket entity)
        (addToBucket g.numNodes (g.buckets (entityHashBucket entity))) bucket ↔
          k = g.numNodes ∧ entityHashBucket entity = bucket ∨ k ∈ g.buckets bucket := by
      by_cases hb : bucket = entityHashBucket entity
      · subst hb
        simp [mem_addToBucket]
      · simp [Function.update_of_ne hb, Ne.symm hb]
    simp only [hmem, h.mem_buckets]
    by_cases hkn : k = g.numNodes
    · simp [hkn]
    · simp only [Function.update_of_ne hkn, hkn, false_and, false_or]
      exact ⟨fun hk => ⟨Nat.lt_succ_of_lt hk.1, hk.2⟩, fun hk => ⟨hold hk.1 hkn, hk.2⟩⟩
  · by_cases hkn : k = g.numNodes
    · by_cases hln : l = g.numNodes
      · rw [hkn, hln]
      · simp only [hkn, Function.update_self, Function.update_of_ne hln] at heq
        exact absurd ⟨l, hold hl hln, heq.symm⟩ hnew
    · by_cases hln : l = g.numNodes
      · simp only [hln, Function.update_self, Function.update_of_ne hkn] at heq
        exact absurd ⟨k, hold hk hkn, heq⟩ hnew
      · simp only [Function.update_of_ne hkn, Function.update_of_ne hln] at heq
        exact h.entity_injective k l (hold hk hkn) (hold hl hln) heq

theorem Linked.add (h : Linked g recorded) (htable : Table g) (hnew : ¬ g.Contains entity)
    (ignoreDuplicates : Bool) : Linked (g.add entity ignoreDuplicates) recorded := by
  rw [htable.add_eq hnew]
  have hunrecorded (b : Entity) : recorded entity b = false := by
    by_contra hrec
    exact hnew (h.contained entity b (by simpa using hrec))
  have hunrecorded' (b : Entity) : recorded b entity = false := by
    rw [h.symmetric]
    exact hunrecorded b
  have hold {k : ℕ} (hk : k < g.numNodes + 1) (hne : k ≠ g.numNodes) : k < g.numNodes := by omega
  refine ⟨h.symmetric, h.irreflexive, fun a b hab => ?_, fun k l hk => ?_, fun k hk => ?_,
    fun bit => ?_⟩
  · obtain ⟨k, hk, rfl⟩ := h.contained a b hab
    refine ⟨k, Nat.lt_succ_of_lt hk, ?_⟩
    simp only [Function.update_of_ne hk.ne]
  · by_cases hkn : k = g.numNodes
    · simp [hkn, hunrecorded]
    · simp only [Function.update_of_ne hkn, h.count_eq k l (hold hk hkn)]
      by_cases hln : l = g.numNodes
      · simp [hln, hunrecorded']
      · have hlt : l < g.numNodes + 1 ↔ l < g.numNodes := by omega
        simp only [Function.update_of_ne hln, hlt]
  · by_cases hkn : k = g.numNodes
    · simp [hkn]
    · simp only [Function.update_of_ne hkn]
      exact h.degree_eq k (hold hk hkn)
  · simp only [h.matrix_iff]
    constructor
    · rintro ⟨i, j, hij, hj, hrec, hbit⟩
      refine ⟨i, j, hij, Nat.lt_succ_of_lt hj, ?_, hbit⟩
      rwa [Function.update_of_ne (hij.trans hj).ne, Function.update_of_ne hj.ne]
    · rintro ⟨i, j, hij, hj, hrec, hbit⟩
      have hi : i ≠ g.numNodes := by omega
      have hjn : j ≠ g.numNodes := by
        rintro rfl
        rw [Function.update_self, hunrecorded'] at hrec
        cases hrec
      rw [Function.update_of_ne hi, Function.update_of_ne hjn] at hrec
      exact ⟨i, j, hij, hold hj hjn, hrec, hbit⟩

end Adding

namespace System

variable {s s' : System} {op : Op}

structure Inv (s : System) : Prop where
  table : Table s.graph
  linked : Linked s.graph s.recorded

theorem inv_initialState : Inv initialState where
  table := by
    refine ⟨by decide, fun k hk => absurd hk (Nat.not_lt_zero k), fun bucket k => ?_,
      fun k l hk => absurd hk (Nat.not_lt_zero k)⟩
    simp [initialState, Graph.initialized]
  linked := by
    refine ⟨fun _ _ => rfl, fun _ => rfl, fun _ _ h => (by cases h), fun k l hk => ?_,
      fun k hk => ?_, fun bit => ?_⟩
    · exact absurd hk (Nat.not_lt_zero k)
    · exact absurd hk (Nat.not_lt_zero k)
    · simp [initialState, Graph.initialized]

theorem Inv.represents (h : Inv s) : Represents s where
  listed_once k l hk hl hne := by
    rw [h.linked.matrix_pairBit h.table hk hl hne, h.linked.count_eq k l hk]
    simp [hl]
  degree_eq := h.linked.degree_eq
  hasInterference_eq k l hk hl hne := h.linked.matrix_pairBit h.table hk hl hne

/-- Every operation returns, and keeps the invariant where the condition holds. -/
theorem Inv.exec (h : Inv s) (hop : Permitted s op) :
    ∃ s', exec s op = some s' ∧ (Meets s op → Inv s') := by
  cases op with
  | add entity ignoreDuplicates =>
    obtain ⟨-, hnew, hroom⟩ := hop
    exact ⟨_, rfl, fun _ => ⟨h.table.add hnew hroom _, h.linked.add h.table hnew _⟩⟩
  | addInterferenceBetween entity1 entity2 =>
    obtain ⟨k₁, hfind₁, hk₁, rfl⟩ := h.table.exists_node hop.1
    obtain ⟨k₂, hfind₂, hk₂, rfl⟩ := h.table.exists_node hop.2
    refine ⟨⟨s.graph.addInterferenceBetween k₁ k₂,
        recordPair s.recorded (s.graph.node k₁).entity (s.graph.node k₂).entity⟩,
      by simp only [System.exec, hfind₁, hfind₂, Option.bind_some, Option.map_some], fun _ => ?_⟩
    have hadd := h.linked.addInterferenceBetween h.table hk₁ hk₂
    exact ⟨hadd.1, hadd.2⟩
  | removeInterferenceBetween entity1 entity2 =>
    obtain ⟨hmem₁, hmem₂, hrec⟩ := hop
    obtain ⟨k₁, hfind₁, hk₁, rfl⟩ := h.table.exists_node hmem₁
    obtain ⟨k₂, hfind₂, hk₂, rfl⟩ := h.table.exists_node hmem₂
    exact ⟨⟨s.graph.removeInterferenceBetween k₁ k₂, erasePair s.recorded _ _⟩,
      by simp only [System.exec, hfind₁, hfind₂, Option.bind_some, Option.map_some],
      fun _ => ⟨h.table.congr (SameNodes.removeInterferenceBetween _ _ _),
        h.linked.removeInterferenceBetween h.table hk₁ hk₂ hrec⟩⟩
  | removeAllInterferences entity =>
    obtain ⟨k, hfind, hk, rfl⟩ := h.table.exists_node hop
    exact ⟨⟨s.graph.removeAllInterferences k, eraseEntity s.recorded _⟩,
      by simp only [System.exec, hfind, Option.map_some],
      fun hmeets => ⟨h.table.congr (removeAllInterferences_same _ _),
        h.linked.removeAll_of_meets h.table hk (hmeets k hfind)⟩⟩
  | hasInterference entity1 entity2 =>
    obtain ⟨k₁, hfind₁, -, rfl⟩ := h.table.exists_node hop.1
    obtain ⟨k₂, hfind₂, -, rfl⟩ := h.table.exists_node hop.2
    exact ⟨s, by simp only [System.exec, Graph.entitiesInterfere, hfind₁, hfind₂,
      Option.bind_some, Option.map_some], fun _ => h⟩

/-- A question is answered as recorded exactly when it is not one for a bit of others. -/
theorem Inv.entitiesInterfere_iff (h : Inv s) {entity1 entity2 : Entity}
    (hop : Permitted s (.hasInterference entity1 entity2)) :
    s.graph.entitiesInterfere entity1 entity2 = some (s.recorded entity1 entity2) ↔
      Meets s (.hasInterference entity1 entity2) := by
  obtain ⟨k₁, hfind₁, hk₁, rfl⟩ := h.table.exists_node hop.1
  obtain ⟨k₂, hfind₂, hk₂, rfl⟩ := h.table.exists_node hop.2
  simp only [Graph.entitiesInterfere, hfind₁, hfind₂, Option.bind_some, Option.map_some,
    Option.some.injEq, Graph.hasInterference, Meets]
  by_cases hne : k₁ = k₂
  · subst hne
    rw [h.linked.irreflexive, ← Bool.not_eq_true, h.linked.matrix_pairBit_self h.table hk₁]
    constructor
    · rintro hnot - k hk
      obtain rfl := Option.some.inj hk
      exact hnot
    · exact fun hall => hall rfl k₁ rfl
  · rw [h.linked.matrix_pairBit h.table hk₁ hk₂ hne]
    exact ⟨fun _ heq => absurd (h.table.entity_injective k₁ k₂ hk₁ hk₂ heq) hne, fun _ => rfl⟩

/-- A node that loses all its interferences leaves a bit behind elsewhere. -/
theorem Inv.meets_of_represents (h : Inv s) {entity : Entity}
    (hop : Permitted s (.removeAllInterferences entity))
    (hexec : System.exec s (.removeAllInterferences entity) = some s') (hrep : Represents s') :
    Meets s (.removeAllInterferences entity) := by
  obtain ⟨k, hfind, hk, rfl⟩ := h.table.exists_node hop
  simp only [System.exec, hfind, Option.map_some, Option.some.injEq] at hexec
  subst hexec
  intro k' hk'
  obtain rfl := Option.some.inj (hfind.symm.trans hk')
  by_contra hnot
  obtain ⟨l, hl, hkl, hbit⟩ := h.linked.exists_bit_of_not_meets h.table hk hnot
  have hsame := removeAllInterferences_same s.graph k
  have hcount := hrep.listed_once k l (hsame.numNodes ▸ hk) (hsame.numNodes ▸ hl) hkl
  rw [h.linked.removeAll_adjList hk hk, if_pos rfl, hsame.pairBit, hbit] at hcount
  cases hcount

theorem Inv.kept_iff (h : Inv s) (hop : Permitted s op) :
    (∃ s', System.exec s op = some s' ∧ Kept s op s') ↔ Meets s op := by
  obtain ⟨s', hexec, hinv⟩ := h.exec hop
  constructor
  · rintro ⟨s'', hexec', hrep, hanswer⟩
    cases op with
    | removeAllInterferences entity => exact h.meets_of_represents hop hexec' hrep
    | hasInterference entity1 entity2 =>
      exact (h.entitiesInterfere_iff hop).1 hanswer
    | add | addInterferenceBetween | removeInterferenceBetween => trivial
  · intro hmeets
    refine ⟨s', hexec, (hinv hmeets).represents, ?_⟩
    cases op with
    | hasInterference => exact (h.entitiesInterfere_iff hop).2 hmeets
    | add | addInterferenceBetween | removeInterferenceBetween | removeAllInterferences => trivial

theorem Inv.keepsRun_iff (h : Inv s) (ops : List Op)
    (hops : EveryStep System.exec Permitted s ops) :
    EveryStepKeeps System.exec Kept s ops ↔ EveryStep System.exec Meets s ops := by
  refine everyStepKeeps_iff (fun s op h hop => h.kept_iff hop) (fun s op s' h hop hmeets hexec => ?_)
    h hops
  obtain ⟨s'', hexec', hinv⟩ := h.exec hop
  obtain rfl := Option.some.inj (hexec.symm.trans hexec')
  exact hinv hmeets

/-- In a run from an empty graph, bits, lists, degrees and answers all follow what is recorded
exactly when no operation takes the bit of a node with itself for that of a pair. Pairs have
bits of their own, and the table holds what the formula computes. -/
theorem graphRun_keeps_iff (ops : List Op)
    (hops : EveryStep System.exec Permitted initialState ops) :
    (EveryStepKeeps System.exec Kept initialState ops ↔
      EveryStep System.exec Meets initialState ops) ∧
    (∀ index1 index2 index1' index2', index1 ≠ index2 → index1' ≠ index2' →
      getNodePairToBVIndex index1 index2 = getNodePairToBVIndex index1' index2' →
        index1 = index1' ∧ index2 = index2' ∨ index1 = index2' ∧ index2 = index1') ∧
    ∀ high, high < 64 → highIndexTable.getD high 0 =
      ((BitVec.ofNat 64 high - 1) * BitVec.ofNat 64 high) >>> 1 :=
  ⟨inv_initialState.keepsRun_iff ops hops,
    fun _ _ _ _ hne hne' h => getNodePairToBVIndex_injective hne hne' h, highIndexTable_eq⟩

/-- Three entities, of which the last two interfere. -/
def threeEntities : List Op :=
  [.add 4 false, .add 8 false, .add 12 false, .addInterferenceBetween 8 12]

theorem graphRun_keeps_iff_threeEntities :
    EveryStepKeeps System.exec Kept initialState
      (threeEntities ++ [.hasInterference 12 8, .removeInterferenceBetween 8 12]) :=
  (graphRun_keeps_iff _ (by decide +kernel)).1.2 (by decide +kernel)

/-- The bit of the pair stays set when the first of the two loses all its interferences. -/
theorem removeAllInterferences_leaves_bit :
    EveryStep System.exec Permitted initialState
        (threeEntities ++ [.removeAllInterferences 8]) ∧
      ¬ EveryStepKeeps System.exec Kept initialState
        (threeEntities ++ [.removeAllInterferences 8]) := by
  decide +kernel

end System

end OMR.Compiler.InterferenceGraph
