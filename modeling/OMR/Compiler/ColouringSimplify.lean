import OMR.Compiler.Colouring

/-!
# What `simplify` does

While it runs, the nodes of the working set are those that have not been removed, and their
working degrees count the neighbours among them. It goes through exactly if no spill candidate
is needed, since none is ever found.
-/

namespace OMR.Compiler.InterferenceGraph

open OMR.Lib

/-- The nodes of a graph stand under their numbers, with the neighbours in their lists. -/
structure Neighbourly (g : Graph) : Prop where
  index_eq : ∀ k < g.numNodes, (g.node k).index.toNat = k
  degree_eq : ∀ k < g.numNodes, (g.node k).degree = (g.node k).adjList.length
  lt_of_mem : ∀ k < g.numNodes, ∀ l ∈ (g.node k).adjList, l < g.numNodes
  nodup : ∀ k < g.numNodes, (g.node k).adjList.Nodup
  notMem_self : ∀ k < g.numNodes, k ∉ (g.node k).adjList
  mem_comm : ∀ k < g.numNodes, ∀ l < g.numNodes,
    l ∈ (g.node k).adjList ↔ k ∈ (g.node l).adjList

theorem Linked.neighbourly {g : Graph} {recorded : Entity → Entity → Bool}
    (h : Linked g recorded) (htable : Table g) : Neighbourly g where
  index_eq k hk := by
    have := htable.numNodes_lt
    rw [htable.index_eq k hk, BitVec.toNat_ofNat, Nat.mod_eq_of_lt (by omega)]
  degree_eq := h.degree_eq
  lt_of_mem k hk l hl := ((h.mem_adjList hk).1 hl).1
  nodup k hk := h.nodup_adjList hk
  notMem_self k hk := h.notMem_self hk
  mem_comm k hk l hl := h.mem_comm hk hl

namespace Colouring

variable {c c' : Colouring} {k m : ℕ}

section Decrement

/-- What the loop over the neighbours does to the working degrees. -/
theorem decUnlessRemoved_foldlM {cursors : List ℕ} (hnodup : cursors.Nodup)
    (hpos : ∀ l ∈ cursors, c.isRemovedFromIG l = false → c.workingDegree l ≠ 0) :
    cursors.foldlM decUnlessRemoved c = .ok { c with
      workingDegree := fun l => if l ∈ cursors ∧ c.isRemovedFromIG l = false then
        c.workingDegree l - 1 else c.workingDegree l } := by
  induction cursors generalizing c with
  | nil => simp [pure, Except.pure]
  | cons cursor cursors ih =>
    obtain ⟨hnot, hnodup⟩ := List.nodup_cons.1 hnodup
    rw [List.foldlM_cons]
    by_cases hremoved : c.isRemovedFromIG cursor = true
    · have hstep : decUnlessRemoved c cursor = .ok c := by
        rw [decUnlessRemoved, if_pos hremoved]
      rw [hstep]
      simp only [bind, Except.bind]
      rw [ih hnodup fun l hl => hpos l (List.mem_cons_of_mem _ hl)]
      congr 2
      funext l
      by_cases hl : l = cursor
      · simp [hl, hremoved]
      · simp [hl]
    · rw [Bool.not_eq_true] at hremoved
      have hstep : decUnlessRemoved c cursor =
          .ok (c.setWorkingDegree cursor (c.workingDegree cursor - 1)) := by
        rw [decUnlessRemoved, if_neg (by simp [hremoved]), decWorkingDegree,
          if_neg (hpos cursor List.mem_cons_self hremoved)]
      rw [hstep]
      simp only [bind, Except.bind]
      have hrest : ∀ l ∈ cursors, c.isRemovedFromIG l = false →
          Function.update c.workingDegree cursor (c.workingDegree cursor - 1) l ≠ 0 := by
        intro l hl hl'
        have hne : l ≠ cursor := fun heq => hnot (heq ▸ hl)
        rw [Function.update_of_ne hne]
        exact hpos l (List.mem_cons_of_mem _ hl) hl'
      rw [ih hnodup hrest]
      simp only [setWorkingDegree]
      congr 2
      funext l
      by_cases hl : l = cursor
      · simp [hl, hnot, hremoved]
      · simp [hl]

/-- The state after a node has been removed and pushed. -/
def afterRemoval (c : Colouring) (igNode : ℕ) : Colouring :=
  { c with
    workingDegree := fun l => if l = igNode then 0
      else if l ∈ (c.graph.node igNode).adjList ∧ c.isRemovedFromIG l = false then
        c.workingDegree l - 1
      else c.workingDegree l
    isRemovedFromIG := Function.update c.isRemovedFromIG igNode true
    nodeStack := igNode :: c.nodeStack }

theorem removeAndPush_eq (workingSet : List ℕ) (hnodup : (c.graph.node k).adjList.Nodup)
    (hpos : ∀ l ∈ (c.graph.node k).adjList, c.isRemovedFromIG l = false →
      c.workingDegree l ≠ 0) :
    removeAndPush (c, workingSet) k =
      .ok (c.afterRemoval k, workingSet.erase (c.graph.node k).index.toNat) := by
  rw [removeAndPush, virtualRemoveNodeFromIG, decWorkingDegreeOfNeighbours,
    decUnlessRemoved_foldlM hnodup hpos]
  simp only [Except.map, setWorkingDegree, setIsRemovedFromIG, push, afterRemoval]
  congr 3
  funext l
  by_cases hl : l = k
  · simp [hl]
  · simp [hl]

end Decrement

/-- The state of `simplify` between two nodes: what has been pushed on top of the old stack, and
the working set. -/
structure Working (g : Graph) (numColours : IGNodeColour) (old pushed workingSet : List ℕ)
    (c : Colouring) : Prop where
  graph_eq : c.graph = g
  numColours_eq : c.numColours = numColours
  colour_eq : ∀ k < g.numNodes, c.colour k = uncoloured
  stack_eq : c.nodeStack = pushed ++ old
  perm : (pushed ++ workingSet).Perm (List.range g.numNodes)
  removed_iff : ∀ k < g.numNodes, c.isRemovedFromIG k = true ↔ k ∉ workingSet
  degree_eq : ∀ k ∈ workingSet, c.workingDegree k =
    degreeWithin (fun k => (g.node k).adjList) workingSet.toFinset k
  stacked : Stacked (fun k => (g.node k).adjList) numColours.toNat
    (Finset.range g.numNodes) pushed

namespace Working

variable {g : Graph} {numColours : IGNodeColour} {old pushed workingSet : List ℕ}

theorem nodup (h : Working g numColours old pushed workingSet c) :
    (pushed ++ workingSet).Nodup :=
  h.perm.nodup_iff.2 List.nodup_range

theorem nodup_workingSet (h : Working g numColours old pushed workingSet c) :
    workingSet.Nodup :=
  (List.nodup_append.1 h.nodup).2.1

theorem lt_numNodes (h : Working g numColours old pushed workingSet c) (hk : k ∈ workingSet) :
    k < g.numNodes :=
  List.mem_range.1 (h.perm.mem_iff.1 (List.mem_append_right _ hk))

theorem toFinset_erase (h : Working g numColours old pushed workingSet c) (k : ℕ) :
    (workingSet.erase k).toFinset = workingSet.toFinset.erase k := by
  ext l
  rw [List.mem_toFinset, h.nodup_workingSet.mem_erase_iff, Finset.mem_erase, List.mem_toFinset]

/-- What is not below a node on the stack is still in the working set. -/
theorem sdiff_pushed (h : Working g numColours old pushed workingSet c) :
    Finset.range g.numNodes \ pushed.toFinset = workingSet.toFinset := by
  ext l
  have hmem := h.perm.mem_iff (a := l)
  have hdisjoint := List.disjoint_of_nodup_append h.nodup
  rw [List.mem_append, List.mem_range] at hmem
  rw [Finset.mem_sdiff, Finset.mem_range, List.mem_toFinset, List.mem_toFinset, ← hmem]
  constructor
  · rintro ⟨hl | hl, hnot⟩
    · exact absurd hl hnot
    · exact hl
  · intro hl
    exact ⟨.inr hl, fun hl' => hdisjoint hl' hl⟩

/-- A node with few neighbours left is removed and pushed. -/
theorem removeAndPush (h : Working g numColours old pushed workingSet c) (hg : Neighbourly g)
    (hk : k ∈ workingSet)
    (hfew : degreeWithin (fun k => (g.node k).adjList) workingSet.toFinset k <
      numColours.toNat) :
    Colouring.removeAndPush (c, workingSet) k = .ok (c.afterRemoval k, workingSet.erase k) ∧
      Working g numColours old (k :: pushed) (workingSet.erase k) (c.afterRemoval k) := by
  have hlt := h.lt_numNodes hk
  have hmem {m : ℕ} : m ∈ workingSet.erase k ↔ m ≠ k ∧ m ∈ workingSet :=
    h.nodup_workingSet.mem_erase_iff
  have hpos : ∀ l ∈ (c.graph.node k).adjList, c.isRemovedFromIG l = false →
      c.workingDegree l ≠ 0 := by
    intro l hl hremoved
    rw [h.graph_eq] at hl
    have hllt := hg.lt_of_mem k hlt l hl
    have hlmem : l ∈ workingSet := by
      by_contra hnot
      rw [(h.removed_iff l hllt).2 hnot] at hremoved
      cases hremoved
    rw [h.degree_eq l hlmem]
    exact (degreeWithin_pos ((hg.mem_comm k hlt l hllt).1 hl) (List.mem_toFinset.2 hk)).ne'
  have hnodup : (c.graph.node k).adjList.Nodup := h.graph_eq ▸ hg.nodup k hlt
  refine ⟨?_, h.graph_eq, h.numColours_eq, h.colour_eq, congrArg (k :: ·) h.stack_eq, ?_, ?_,
    ?_, ?_⟩
  · rw [removeAndPush_eq workingSet hnodup hpos, h.graph_eq, hg.index_eq k hlt]
  · exact (List.perm_middle.symm.trans
      (List.Perm.append_left pushed (List.perm_cons_erase hk).symm)).trans h.perm
  · intro m hm
    rw [hmem]
    by_cases hmk : m = k
    · simp [afterRemoval, hmk]
    · simp only [afterRemoval, Function.update_of_ne hmk, h.removed_iff m hm, ne_eq, hmk,
        not_false_eq_true, true_and]
  · intro m hm
    obtain ⟨hmk, hmw⟩ := hmem.1 hm
    have hmlt := h.lt_numNodes hmw
    have hkept : c.isRemovedFromIG m = false := by
      rw [← Bool.not_eq_true, h.removed_iff m hmlt, not_not]
      exact hmw
    have hnodup' : ((fun k => (g.node k).adjList) m).Nodup := hg.nodup m hmlt
    rw [h.toFinset_erase, degreeWithin_erase hnodup' (List.mem_toFinset.2 hk),
      ← h.degree_eq m hmw]
    simp only [afterRemoval, hmk, if_false, h.graph_eq, hkept, and_true,
      hg.mem_comm k hlt m hmlt]
  · refine ⟨?_, h.stacked⟩
    rw [h.sdiff_pushed]
    exact hfew

/-- The nodes with few neighbours left are removed one after the other, which leaves the others
with no more neighbours than they had. -/
theorem removeColourable (h : Working g numColours old pushed workingSet c) (hg : Neighbourly g)
    {nodes : List ℕ} (hnodup : nodes.Nodup) (hsub : ∀ k ∈ nodes, k ∈ workingSet)
    (hfew : ∀ k ∈ nodes, degreeWithin (fun k => (g.node k).adjList) workingSet.toFinset k <
      numColours.toNat) :
    ∃ c' pushed' workingSet', nodes.foldlM Colouring.removeAndPush (c, workingSet) =
        .ok (c', workingSet') ∧ Working g numColours old pushed' workingSet' c' ∧
      workingSet'.length + nodes.length = workingSet.length ∧
      (Emptied (fun k => (g.node k).adjList) numColours.toNat workingSet'.toFinset ↔
        Emptied (fun k => (g.node k).adjList) numColours.toNat workingSet.toFinset) := by
  induction nodes generalizing c pushed workingSet with
  | nil => exact ⟨c, pushed, workingSet, rfl, h, rfl, Iff.rfl⟩
  | cons k nodes ih =>
    obtain ⟨hnot, hnodup⟩ := List.nodup_cons.1 hnodup
    have hk := hsub k List.mem_cons_self
    have hkfew := hfew k List.mem_cons_self
    obtain ⟨hstep, hnext⟩ := h.removeAndPush hg hk hkfew
    have hset := h.toFinset_erase k
    have hrest : ∀ m ∈ nodes, m ∈ workingSet.erase k := by
      intro m hm
      rw [h.nodup_workingSet.mem_erase_iff]
      exact ⟨fun heq => hnot (heq ▸ hm), hsub m (List.mem_cons_of_mem k hm)⟩
    have hrestFew : ∀ m ∈ nodes, degreeWithin (fun k => (g.node k).adjList)
        (workingSet.erase k).toFinset m < numColours.toNat := by
      intro m hm
      rw [hset]
      exact (degreeWithin_mono (Finset.erase_subset k _) m).trans_lt
        (hfew m (List.mem_cons_of_mem k hm))
    obtain ⟨c', pushed', workingSet', hfold, hworking, hlength, hemptied⟩ :=
      ih hnext hnodup hrest hrestFew
    refine ⟨c', pushed', workingSet', ?_, hworking, ?_, ?_⟩
    · rw [List.foldlM_cons, hstep]
      exact hfold
    · have := List.length_erase_of_mem hk
      have := List.length_pos_of_mem hk
      rw [List.length_cons]
      omega
    · rw [hemptied, hset]
      exact Emptied.erase_iff (List.mem_toFinset.2 hk) hkfew

end Working

section Spill

/-- No degree exceeds the one the search starts with. -/
theorem bestSpillNode_eq_none (c : Colouring) (notColourable : List ℕ) :
    c.bestSpillNode notColourable = none := by
  have hround : ∀ igNode, c.betterSpillNode (-1#32, none) igNode = (-1#32, none) := by
    intro igNode
    rw [betterSpillNode]
    apply if_neg
    rw [gt_iff_lt, BitVec.lt_def]
    have := (BitVec.ofNat 32 (c.graph.node igNode).degree).isLt
    simp only [BitVec.toNat_neg, BitVec.toNat_ofNat]
    omega
  have hall : notColourable.foldl c.betterSpillNode (-1#32, none) = (-1#32, none) := by
    induction notColourable with
    | nil => rfl
    | cons igNode notColourable ih => rw [List.foldl_cons, hround, ih]
  rw [bestSpillNode, hall]

end Spill

section Loop

variable {g : Graph} {numColours : IGNodeColour} {old pushed workingSet : List ℕ}

/-- The nodes are pushed as long as there are some with few neighbours left. -/
theorem Working.simplifyLoop (h : Working g numColours old pushed workingSet c)
    (hg : Neighbourly g) {fuel : ℕ} (hfuel : workingSet.length < fuel) :
    (Emptied (fun k => (g.node k).adjList) numColours.toNat workingSet.toFinset →
      ∃ c' pushed', Colouring.simplifyLoop fuel (c, workingSet) = .ok c' ∧
        Working g numColours old pushed' [] c') ∧
    (¬ Emptied (fun k => (g.node k).adjList) numColours.toNat workingSet.toFinset →
      Colouring.simplifyLoop fuel (c, workingSet) = .error .nullNode) := by
  induction fuel generalizing c pushed workingSet with
  | zero => exact absurd hfuel (Nat.not_lt_zero _)
  | succ fuel ih =>
    rw [Colouring.simplifyLoop]
    by_cases hnil : workingSet = []
    · subst hnil
      rw [if_pos rfl]
      exact ⟨fun _ => ⟨c, pushed, rfl, h⟩, fun hnot => absurd .empty hnot⟩
    · rw [if_neg hnil, simplifyRound]
      have hmem : ∀ k, k ∈ c.colourableDegreeSet workingSet ↔ k ∈ workingSet ∧
          degreeWithin (fun k => (g.node k).adjList) workingSet.toFinset k <
            numColours.toNat := by
        intro k
        rw [colourableDegreeSet, List.mem_filter, decide_eq_true_iff, h.numColours_eq]
        exact and_congr_right fun hk => by rw [h.degree_eq k hk]
      by_cases hcolourable : c.colourableDegreeSet workingSet = []
      · have hmany : ¬ Emptied (fun k => (g.node k).adjList) numColours.toNat
            workingSet.toFinset := by
          apply Emptied.not_of_many (List.toFinset_nonempty_iff workingSet |>.2 hnil)
          intro k hk
          by_contra hlt
          have hk' := (hmem k).2 ⟨List.mem_toFinset.1 hk, not_le.1 hlt⟩
          rw [hcolourable] at hk'
          exact List.not_mem_nil hk'
        simp only [hcolourable, ne_eq, not_true_eq_false, if_false, bestSpillNode_eq_none]
        exact ⟨fun hemptied => absurd hemptied hmany, fun _ => rfl⟩
      · obtain ⟨c', pushed', workingSet', hfold, hworking, hlength, hemptied⟩ :=
          h.removeColourable hg (h.nodup_workingSet.filter _)
            (fun k hk => ((hmem k).1 hk).1) (fun k hk => ((hmem k).1 hk).2)
        have hpos := List.length_pos_iff.2 hcolourable
        have hfold' : (c.colourableDegreeSet workingSet).foldlM Colouring.removeAndPush
            (c, workingSet) = .ok (c', workingSet') := hfold
        have hlength' : workingSet'.length + (c.colourableDegreeSet workingSet).length =
            workingSet.length := hlength
        simp only [ne_eq, hcolourable, not_false_eq_true, if_true, hfold', Except.bind]
        rw [← hemptied]
        exact ih hworking (by omega)

end Loop

section Start

theorem resetNode_foldl (c : Colouring) (nodes : List ℕ) :
    nodes.foldl resetNode c = { c with
      workingDegree := fun l => if l ∈ nodes then (c.graph.node l).degree else c.workingDegree l
      isRemovedFromIG := fun l => if l ∈ nodes then false else c.isRemovedFromIG l
      colour := fun l => if l ∈ nodes then uncoloured else c.colour l } := by
  induction nodes generalizing c with
  | nil => simp
  | cons k nodes ih =>
    rw [List.foldl_cons, ih]
    simp only [resetNode, setWorkingDegree, setIsRemovedFromIG, setColour, List.mem_cons]
    congr 1
    all_goals
      funext l
      by_cases hl : l = k
      · simp [hl]
      · simp [hl]

/-- All nodes are in the working set at first. -/
theorem working_start (c : Colouring) (hg : Neighbourly c.graph) :
    Working c.graph c.numColours c.nodeStack [] (List.range c.graph.numNodes)
      ((List.range c.graph.numNodes).foldl resetNode c) := by
  rw [resetNode_foldl]
  refine ⟨rfl, rfl, fun k hk => ?_, rfl, List.Perm.refl _, fun k hk => ?_, fun k hk => ?_,
    trivial⟩
  · simp [hk]
  · simp [hk]
  · have hlt := List.mem_range.1 hk
    simp only [hk, if_true]
    rw [hg.degree_eq k hlt, degreeWithin, eq_comm, List.countP_eq_length]
    intro l hl
    simpa using hg.lt_of_mem k hlt l hl

/-- Nodes are pushed until the graph is empty, or a null node is taken for a spill candidate. -/
theorem simplify_spec (c : Colouring) (hg : Neighbourly c.graph) :
    (c.CanBeEmptied c.numColours → ∃ c' pushed, c.simplify = .ok c' ∧
      Working c.graph c.numColours c.nodeStack pushed [] c') ∧
    (¬ c.CanBeEmptied c.numColours → c.simplify = .error .nullNode) := by
  have hall : (List.range c.graph.numNodes).toFinset = Finset.range c.graph.numNodes :=
    List.toFinset_range c.graph.numNodes
  rw [simplify]
  by_cases hzero : c.graph.numNodes = 0
  · rw [if_pos hzero]
    constructor
    · intro _
      refine ⟨c, [], rfl, rfl, rfl, fun k hk => ?_, rfl, ?_, fun k hk => ?_, fun k hk => ?_,
        trivial⟩
      · omega
      · simp [hzero]
      · omega
      · cases hk
    · intro hnot
      rw [CanBeEmptied, hzero] at hnot
      exact absurd .empty hnot
  · rw [if_neg hzero, CanBeEmptied, ← hall]
    exact (working_start c hg).simplifyLoop hg (by rw [List.length_range]; omega)

theorem simplifies_iff (c : Colouring) (hg : Neighbourly c.graph) :
    c.Simplifies ↔ c.CanBeEmptied c.numColours := by
  obtain ⟨hok, hfault⟩ := c.simplify_spec hg
  constructor
  · rintro ⟨c', pushed, hsimplify, -, -⟩
    by_contra hnot
    rw [hfault hnot] at hsimplify
    cases hsimplify
  · intro hemptied
    obtain ⟨c', pushed, hsimplify, hworking⟩ := hok hemptied
    have hperm := hworking.perm
    rw [List.append_nil] at hperm
    exact ⟨c', pushed, hsimplify, hworking.stack_eq, hperm⟩

end Start

end Colouring

end OMR.Compiler.InterferenceGraph
