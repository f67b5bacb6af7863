import OMR.Compiler.ColouringSimplify

/-!
# Runs of colourings

`select` finds a colour for every node, since few of the neighbours that have a colour are
above it on the stack. The stack is empty again after a colouring.
-/

namespace OMR.Compiler.InterferenceGraph

open OMR.Lib

namespace Colouring

variable {c c' : Colouring} {k : ℕ}

section Select

theorem mem_clearColour_foldl (c : Colouring) {available : List ℕ} (hnodup : available.Nodup)
    (nodes : List ℕ) (x : ℕ) : x ∈ nodes.foldl c.clearColour available ↔
      x ∈ available ∧ ∀ l ∈ nodes, c.colour l ≠ uncoloured → (c.colour l).toNat ≠ x := by
  induction nodes generalizing available with
  | nil => simp
  | cons l nodes ih =>
    rw [List.foldl_cons, clearColour]
    split
    · next hcoloured =>
      rw [ih (hnodup.erase _), hnodup.mem_erase_iff]
      simp only [List.mem_cons, forall_eq_or_imp]
      exact ⟨fun ⟨⟨hne, hx⟩, hrest⟩ => ⟨hx, fun _ => Ne.symm hne, hrest⟩,
        fun ⟨hx, hne, hrest⟩ => ⟨⟨Ne.symm (hne hcoloured), hx⟩, hrest⟩⟩
    · next hcoloured =>
      rw [ih hnodup]
      simp only [List.mem_cons, forall_eq_or_imp]
      exact ⟨fun ⟨hx, hrest⟩ => ⟨hx, fun h => absurd h hcoloured, hrest⟩,
        fun ⟨hx, _, hrest⟩ => ⟨hx, hrest⟩⟩

theorem mem_availableColours (c : Colouring) (igNode x : ℕ) :
    x ∈ c.availableColours igNode ↔ x < c.numColours.toNat ∧
      ∀ l ∈ c.neighbours igNode, c.colour l ≠ uncoloured → (c.colour l).toNat ≠ x := by
  rw [availableColours, mem_clearColour_foldl c List.nodup_range, List.mem_range]
  rfl

theorem toNat_lt_of_pos {numColours : IGNodeColour} (hpos : 1 ≤ numColours.toInt) :
    numColours.toNat < 2 ^ 31 := by
  rw [BitVec.toInt_eq_toNat_cond] at hpos
  split at hpos
  · omega
  · have := numColours.isLt
    omega

theorem ofNat_ne_uncoloured {x : ℕ} (hx : x < 2 ^ 31) : BitVec.ofNat 32 x ≠ uncoloured := by
  intro heq
  have hnat := congrArg BitVec.toNat heq
  rw [BitVec.toNat_ofNat, uncoloured] at hnat
  simp only [BitVec.toNat_neg, BitVec.toNat_ofNat] at hnat
  omega

/-- The state of `select` between two nodes: what is left on the stack has no colour, and the
other nodes are properly coloured. -/
structure Selecting (g : Graph) (numColours : IGNodeColour) (remaining : List ℕ)
    (assigned : Finset ℕ) (c : Colouring) : Prop where
  graph_eq : c.graph = g
  numColours_eq : c.numColours = numColours
  stack_eq : c.nodeStack = remaining
  nodup : remaining.Nodup
  lt_numNodes : ∀ k ∈ remaining, k < g.numNodes
  colour_remaining : ∀ k ∈ remaining, c.colour k = uncoloured
  colour_lt : ∀ k < g.numNodes, k ∉ remaining → (c.colour k).toNat < numColours.toNat
  proper : ∀ k < g.numNodes, k ∉ remaining → ∀ l ∈ (g.node k).adjList, l ∉ remaining →
    c.colour k ≠ c.colour l
  assigned_eq : ∀ x, x ∈ assigned ↔
    ∃ k < g.numNodes, k ∉ remaining ∧ (c.colour k).toNat = x
  stacked : Stacked (fun k => (g.node k).adjList) numColours.toNat
    (Finset.range g.numNodes) remaining

namespace Selecting

variable {g : Graph} {numColours : IGNodeColour} {remaining : List ℕ} {assigned : Finset ℕ}

/-- Some colour is left for the node on top. -/
theorem exists_available (h : Selecting g numColours (k :: remaining) assigned c)
    (hg : Neighbourly g) :
    ∃ colour, (({ c with nodeStack := remaining } : Colouring).availableColours k).head? =
      some colour := by
  obtain ⟨hfew, -⟩ := h.stacked
  obtain ⟨x, hx, hfree⟩ := exists_notMem_colours (fun l => (c.colour l).toNat) hfew
  have hlt := h.lt_numNodes k List.mem_cons_self
  have hmem : x ∈ ({ c with nodeStack := remaining } : Colouring).availableColours k := by
    rw [mem_availableColours]
    refine ⟨h.numColours_eq ▸ hx, fun l hl hcoloured => ?_⟩
    rw [neighbours, h.graph_eq] at hl
    apply hfree l hl
    have hnot : l ∉ remaining := fun hl' =>
      hcoloured (h.colour_remaining l (List.mem_cons_of_mem k hl'))
    simp [hg.lt_of_mem k hlt l hl, hnot]
  exact ⟨_, List.head?_eq_some_head (List.ne_nil_of_mem hmem)⟩

/-- A node that gets an available colour. -/
theorem assign (h : Selecting g numColours (k :: remaining) assigned c) (hg : Neighbourly g)
    (hpos : 1 ≤ numColours.toInt) {colour : ℕ}
    (hcolour : colour ∈ ({ c with nodeStack := remaining } : Colouring).availableColours k) :
    Selecting g numColours remaining (insert colour assigned)
      (({ c with nodeStack := remaining } : Colouring).setColour k (BitVec.ofNat 32 colour)) := by
  rw [mem_availableColours, neighbours, h.graph_eq, h.numColours_eq] at hcolour
  obtain ⟨hlt, hfree⟩ := hcolour
  have hbound := toNat_lt_of_pos hpos
  have htoNat : (BitVec.ofNat 32 colour).toNat = colour := by
    rw [BitVec.toNat_ofNat, Nat.mod_eq_of_lt (by omega)]
  have hk := h.lt_numNodes k List.mem_cons_self
  obtain ⟨hnot, hnodup⟩ := List.nodup_cons.1 h.nodup
  have hself : Function.update c.colour k (BitVec.ofNat 32 colour) k = BitVec.ofNat 32 colour :=
    Function.update_self ..
  have hother {l : ℕ} (hl : l ≠ k) :
      Function.update c.colour k (BitVec.ofNat 32 colour) l = c.colour l :=
    Function.update_of_ne hl ..
  have hout {l : ℕ} (hl : l ≠ k) (hl' : l ∉ remaining) : l ∉ k :: remaining := by
    simp [hl, hl']
  -- A neighbour that is no longer on the stack has a colour, which is not available.
  have hclash : ∀ l ∈ (g.node k).adjList, l ≠ k → l ∉ remaining →
      BitVec.ofNat 32 colour ≠ c.colour l := by
    intro l hl hlk hl' heq
    have hne := ofNat_ne_uncoloured (hlt.trans hbound)
    rw [heq] at hne
    apply hfree l hl hne
    rw [← heq]
    exact htoNat
  refine ⟨h.graph_eq, h.numColours_eq, rfl, hnodup,
    fun l hl => h.lt_numNodes l (List.mem_cons_of_mem k hl), fun l hl => ?_, fun l hl hl' => ?_,
    fun l hl hl' m hm hm' => ?_, fun x => ?_, h.stacked.2⟩
  · simp only [setColour]
    rw [hother fun heq => hnot (heq ▸ hl)]
    exact h.colour_remaining l (List.mem_cons_of_mem k hl)
  · simp only [setColour]
    by_cases hlk : l = k
    · rw [hlk, hself, htoNat]
      exact hlt
    · rw [hother hlk]
      exact h.colour_lt l hl (hout hlk hl')
  · simp only [setColour]
    have hne : m ≠ l := fun heq => hg.notMem_self l hl (heq ▸ hm)
    by_cases hlk : l = k
    · subst hlk
      rw [hself, hother hne]
      exact hclash m hm hne hm'
    · by_cases hmk : m = k
      · subst hmk
        rw [hself, hother hlk]
        exact (hclash l ((hg.mem_comm l hl m hk).1 hm) hlk hl').symm
      · rw [hother hlk, hother hmk]
        exact h.proper l hl (hout hlk hl') m hm (hout hmk hm')
  · simp only [setColour, Finset.mem_insert, h.assigned_eq]
    constructor
    · rintro (rfl | ⟨l, hl, hl', hx⟩)
      · exact ⟨k, hk, hnot, by rw [hself, htoNat]⟩
      · rw [List.mem_cons, not_or] at hl'
        exact ⟨l, hl, hl'.2, by rw [hother hl'.1, hx]⟩
    · rintro ⟨l, hl, hl', hx⟩
      by_cases hlk : l = k
      · rw [hlk, hself, htoNat] at hx
        exact .inl hx.symm
      · rw [hother hlk] at hx
        exact .inr ⟨l, hl, hout hlk hl', hx⟩

theorem selectLoop (h : Selecting g numColours remaining assigned c) (hg : Neighbourly g)
    (hpos : 1 ≤ numColours.toInt) :
    ∃ c' assigned', Selecting g numColours [] assigned' c' ∧
      Colouring.selectLoop remaining assigned c =
        (true, { c' with numberOfColoursUsedToColour := BitVec.ofNat 32 assigned'.card }) := by
  induction remaining generalizing c assigned with
  | nil => exact ⟨c, assigned, h, rfl⟩
  | cons k remaining ih =>
    obtain ⟨colour, hhead⟩ := h.exists_available hg
    obtain ⟨c', assigned', hselecting, hloop⟩ :=
      ih (h.assign hg hpos (List.mem_of_mem_head? (Option.mem_def.2 hhead)))
    refine ⟨c', assigned', hselecting, ?_⟩
    rw [Colouring.selectLoop]
    simp only [hhead]
    exact hloop

end Selecting

/-- All nodes are on the stack when `select` starts. -/
theorem Working.selecting {g : Graph} {numColours : IGNodeColour} {pushed : List ℕ}
    (h : Working g numColours [] pushed [] c) :
    Selecting g numColours c.nodeStack ∅ { c with numberOfColoursUsedToColour := 0 } := by
  have hstack := h.stack_eq
  have hperm := h.perm
  rw [List.append_nil] at hstack hperm
  have hmem (k : ℕ) : k ∈ c.nodeStack ↔ k < g.numNodes := by
    rw [hstack, hperm.mem_iff, List.mem_range]
  refine ⟨h.graph_eq, h.numColours_eq, rfl, ?_, fun k hk => (hmem k).1 hk,
    fun k hk => h.colour_eq k ((hmem k).1 hk), fun k hk hnot => absurd ((hmem k).2 hk) hnot,
    fun k hk hnot => absurd ((hmem k).2 hk) hnot, fun x => ?_, ?_⟩
  · rw [hstack]
    exact hperm.nodup_iff.2 List.nodup_range
  · constructor
    · intro hx
      exact absurd hx (Finset.notMem_empty x)
    · rintro ⟨k, hk, hnot, -⟩
      exact absurd ((hmem k).2 hk) hnot
  · rw [hstack]
    exact h.stacked

/-- A call ends with a proper colouring of a graph that can be emptied, and otherwise not at
all. -/
theorem doColouring_spec (hg : Neighbourly c.graph) (hstack : c.nodeStack = [])
    {numColours : IGNodeColour} (hpos : 1 ≤ numColours.toInt) :
    (c.CanBeEmptied numColours → ∃ c' assigned,
      Selecting c.graph numColours [] assigned c' ∧ c.doColouring numColours =
        .ok (true, { c' with
          numberOfColoursUsedToColour := BitVec.ofNat 32 assigned.card })) ∧
    (¬ c.CanBeEmptied numColours → c.doColouring numColours = .error .nullNode) := by
  obtain ⟨hok, hfault⟩ := simplify_spec { c with numColours := numColours } hg
  rw [doColouring]
  constructor
  · intro hemptied
    obtain ⟨c', pushed, hsimplify, hworking⟩ := hok hemptied
    simp only [hstack] at hworking
    obtain ⟨c'', assigned, hselecting, hloop⟩ := hworking.selecting.selectLoop hg hpos
    refine ⟨c'', assigned, hselecting, ?_⟩
    rw [hsimplify, Except.map, select, hloop]
  · intro hnot
    rw [hfault hnot]
    rfl

end Select

section Runs

/-- What a run keeps: the lists of the nodes follow the bits, and the stack is empty. -/
structure Inv (c : Colouring) : Prop where
  table : Table c.graph
  linked : ∃ recorded, Linked c.graph recorded
  stack_eq : c.nodeStack = []

theorem Inv.neighbourly (h : Inv c) : Neighbourly c.graph := by
  obtain ⟨recorded, hlinked⟩ := h.linked
  exact hlinked.neighbourly h.table

theorem inv_initialized : Inv initialized where
  table := System.inv_initialState.table
  linked := ⟨_, System.inv_initialState.linked⟩
  stack_eq := rfl

theorem Inv.exec {op : ColouringOp} (h : Inv c) (hop : Permitted c op)
    (hexec : exec c op = some c') : Inv c' := by
  obtain ⟨recorded, hlinked⟩ := h.linked
  cases op with
  | add entity ignoreDuplicates =>
    obtain ⟨-, hnew, hroom⟩ := hop
    obtain rfl := Option.some.inj hexec
    rw [add]
    split
    · exact h
    · exact ⟨h.table.add hnew hroom _, ⟨recorded, hlinked.add h.table hnew _⟩, h.stack_eq⟩
  | addInterferenceBetween entity1 entity2 =>
    obtain ⟨k₁, hfind₁, hk₁, -⟩ := h.table.exists_node hop.1
    obtain ⟨k₂, hfind₂, hk₂, -⟩ := h.table.exists_node hop.2
    simp only [Colouring.exec, addInterferenceBetween, hfind₁, hfind₂, Option.bind_some,
      Option.map_some, Option.some.injEq] at hexec
    subst hexec
    have hadd := hlinked.addInterferenceBetween h.table hk₁ hk₂
    exact ⟨hadd.1, ⟨_, hadd.2⟩, h.stack_eq⟩
  | doColouring numColours =>
    obtain ⟨hok, hfault⟩ := doColouring_spec h.neighbourly h.stack_eq hop
    rw [Colouring.exec] at hexec
    by_cases hemptied : c.CanBeEmptied numColours
    · obtain ⟨c'', assigned, hselecting, hcall⟩ := hok hemptied
      rw [hcall] at hexec
      obtain rfl := Option.some.inj hexec
      exact ⟨hselecting.graph_eq ▸ h.table, ⟨recorded, hselecting.graph_eq ▸ hlinked⟩,
        hselecting.stack_eq⟩
    · rw [hfault hemptied] at hexec
      cases hexec

/-- The states that runs from an empty graph lead to. -/
inductive Reaches : Colouring → Prop where
  | initialized : Reaches initialized
  | step {c c' : Colouring} (op : ColouringOp) (h : Reaches c) (hop : Permitted c op)
      (hexec : exec c op = some c') : Reaches c'

theorem Reaches.inv (h : Reaches c) : Inv c := by
  induction h with
  | initialized => exact inv_initialized
  | step op h hop hexec ih => exact ih.exec hop hexec

theorem toInt_of_lt {numColours x : IGNodeColour} (hpos : 1 ≤ numColours.toInt)
    (hx : x.toNat ≤ numColours.toNat) : x.toInt = x.toNat := by
  have := toNat_lt_of_pos hpos
  rw [BitVec.toInt_eq_toNat_cond, if_pos (by omega)]

/-- Interfering nodes are neighbours. -/
theorem Inv.mem_neighbours (h : Inv c) {l : ℕ} (hk : k < c.graph.numNodes)
    (hl : l < c.graph.numNodes) (hne : k ≠ l) (hinterfere : c.graph.hasInterference k l = true) :
    l ∈ (c.graph.node k).adjList := by
  obtain ⟨recorded, hlinked⟩ := h.linked
  rw [Graph.hasInterference, hlinked.matrix_pairBit h.table hk hl hne] at hinterfere
  exact (hlinked.mem_adjList hk).2 ⟨hl, hinterfere⟩

theorem Selecting.properlyColoured {numColours : IGNodeColour} {assigned : Finset ℕ}
    (h : Selecting c.graph numColours [] assigned c) (hinv : Inv c)
    (hpos : 1 ≤ numColours.toInt) :
    ProperlyColoured { c with numberOfColoursUsedToColour := BitVec.ofNat 32 assigned.card }
      numColours := by
  have hbound := toNat_lt_of_pos hpos
  have hnone {l : ℕ} : l ∉ ([] : List ℕ) := List.not_mem_nil
  have himage : ((Finset.range c.graph.numNodes).image c.colour).image BitVec.toNat =
      assigned := by
    ext x
    simp [h.assigned_eq, Finset.image_image]
  have hcard : ((Finset.range c.graph.numNodes).image c.colour).card = assigned.card := by
    rw [← himage, Finset.card_image_of_injective _ fun x y => BitVec.eq_of_toNat_eq]
  have hle : assigned.card ≤ numColours.toNat := by
    rw [← Finset.card_range numColours.toNat]
    apply Finset.card_le_card
    intro x hx
    obtain ⟨k, hk, -, rfl⟩ := (h.assigned_eq x).1 hx
    exact Finset.mem_range.2 (h.colour_lt k hk hnone)
  refine ⟨fun k hk => ?_, fun k hk l hl hne hinterfere => ?_, ?_⟩
  · have hlt := h.colour_lt k hk hnone
    rw [toInt_of_lt hpos hlt.le, toInt_of_lt hpos le_rfl]
    exact ⟨Int.natCast_nonneg _, Int.ofNat_lt.2 hlt⟩
  · exact h.proper k hk hnone l (hinv.mem_neighbours hk hl hne hinterfere) hnone
  · have htoNat : (BitVec.ofNat 32 assigned.card).toNat = assigned.card := by
      rw [BitVec.toNat_ofNat, Nat.mod_eq_of_lt (by omega)]
    simp only
    rw [toInt_of_lt hpos (by rw [htoNat]; exact hle), htoNat, hcard]

end Runs

section Pair

/-- Two nodes that interfere. -/
def pair : Colouring :=
  let c := (initialized.add 4 false).add 8 false
  { c with graph := c.graph.addInterferenceBetween 0 1 }

theorem reaches_pair : Reaches pair := by
  have hone : Reaches (initialized.add 4 false) := by
    refine .step (.add 4 false) .initialized ?_ rfl
    decide +kernel
  have htwo : Reaches ((initialized.add 4 false).add 8 false) := by
    refine .step (.add 8 false) hone ?_ rfl
    decide +kernel
  refine .step (.addInterferenceBetween 4 8) htwo ?_ rfl
  decide +kernel

/-- Two colours are enough to delete one node after the other. -/
theorem canBeEmptied_pair : pair.CanBeEmptied 2 := by
  have hempty : ((Finset.range 2).erase 0).erase 1 = ∅ := by decide
  refine .delete (k := 0) (by decide +kernel) (by decide +kernel) ?_
  refine .delete (k := 1) (by decide +kernel) (by decide +kernel) ?_
  exact hempty ▸ .empty

end Pair

/-- In every graph that is built, and with any number of colours, `simplify` pushes every node
once exactly if the graph can be emptied by deleting nodes with fewer neighbours left than there
are colours. Elsewhere it takes a null node for the spill candidate, which is never found. -/
theorem simplify_simplifies_iff (h : Reaches c) (numColours : IGNodeColour) :
    (Simplifies { c with numColours := numColours } ↔ c.CanBeEmptied numColours) ∧
    (¬ c.CanBeEmptied numColours →
      simplify { c with numColours := numColours } = .error .nullNode) ∧
    ∀ notColourable, c.bestSpillNode notColourable = none :=
  ⟨simplifies_iff { c with numColours := numColours } h.inv.neighbourly,
    (simplify_spec { c with numColours := numColours } h.inv.neighbourly).2,
    bestSpillNode_eq_none c⟩

theorem simplify_simplifies_iff_pair : Simplifies { pair with numColours := 2 } :=
  (simplify_simplifies_iff reaches_pair 2).1.2 canBeEmptied_pair

/-- With one colour neither node can be deleted, and none is found to be spilled. -/
theorem pair_takes_null_node : ∃ c, Reaches c ∧ 1 ≤ (1 : IGNodeColour).toInt ∧
    ¬ Simplifies { c with numColours := 1 } := by
  refine ⟨pair, reaches_pair, by decide, ?_⟩
  rintro ⟨c', pushed, hsimplify, -, -⟩
  have hnone : (simplify { pair with numColours := 1 }).toOption.isNone = true := by
    decide +kernel
  rw [hsimplify] at hnone
  cases hnone

/-- Every call in a run that returns true has coloured the graph properly, and a call returns
true where the graph can be emptied. -/
theorem doColouring_proper (h : Reaches c) {numColours : IGNodeColour}
    (hpos : 1 ≤ numColours.toInt) :
    (∀ c', c.doColouring numColours = .ok (true, c') →
      c'.graph = c.graph ∧ c'.ProperlyColoured numColours) ∧
    (c.CanBeEmptied numColours → ∃ c', c.doColouring numColours = .ok (true, c')) := by
  have hinv := h.inv
  obtain ⟨hok, hfault⟩ := doColouring_spec hinv.neighbourly hinv.stack_eq hpos
  constructor
  · intro c' hcall
    by_cases hemptied : c.CanBeEmptied numColours
    · obtain ⟨c'', assigned, hselecting, hcall'⟩ := hok hemptied
      have heq := hcall'.symm.trans hcall
      simp only [Except.ok.injEq, Prod.mk.injEq, true_and] at heq
      subst heq
      obtain ⟨recorded, hlinked⟩ := hinv.linked
      have hinv'' : Inv c'' := ⟨hselecting.graph_eq ▸ hinv.table,
        ⟨recorded, hselecting.graph_eq ▸ hlinked⟩, hselecting.stack_eq⟩
      have hgraph := hselecting.graph_eq
      rw [← hgraph] at hselecting
      exact ⟨hgraph, hselecting.properlyColoured hinv'' hpos⟩
    · rw [hfault hemptied] at hcall
      cases hcall
  · intro hemptied
    obtain ⟨c', assigned, -, hcall⟩ := hok hemptied
    exact ⟨_, hcall⟩

theorem doColouring_proper_pair : ∃ c', pair.doColouring 2 = .ok (true, c') :=
  (doColouring_proper reaches_pair (by decide)).2 canBeEmptied_pair

end Colouring

end OMR.Compiler.InterferenceGraph
