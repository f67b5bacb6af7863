import OMR.Util.HashTableRemoval

/-!
# Walks over a hash table

`hashTableStartDo` and `hashTableNextDo` come to the list nodes bucket after bucket and then to
the tree nodes in the order of their pool. The current entry may be removed. A walk then comes to
every entry that was there at its start, and to none of them twice.
-/

namespace OMR.Util.Hash

open OMR.Lib OMR.Util.AVL

variable {α β κ σ : Type*}

/-- `iterateState`. -/
inductive IterateState where
  | listNodes
  | treeNodes
  | finished
deriving DecidableEq, Repr

/-- `J9HashTableState`. In a chain, `pointerToCurrentNode` is the link behind `index` nodes. The
pool state has the current element and those that `pool_nextDo` still comes to. -/
structure J9HashTableState (α : Type*) where
  bucketIndex : ℕ
  index : ℕ
  didDeleteCurrentNode : Bool
  iterateState : IterateState
  poolState : List (Node α)

/-- From a link on, the first one that leads to a node, `left` buckets before the end of the array:
its bucket and its place in the chain. -/
def skipEmpty (chain : ℕ → List β) : (left bucketIndex index : ℕ) → ℕ × ℕ
  | 0, bucketIndex, index => (bucketIndex, index)
  | left + 1, bucketIndex, index =>
    if (chain bucketIndex)[index]?.isNone then skipEmpty chain left (bucketIndex + 1) 0
    else (bucketIndex, index)

namespace J9HashTable

variable (t : J9HashTable α)

/-- The walk over the slots of a space-optimised table from one on. -/
def slotsFrom (slot : ℕ → Option α) (bucketIndex : ℕ) : J9HashTableState α × Option α :=
  let node := (skipEmpty (fun i => (slot i).toList) (t.tableSize - bucketIndex) bucketIndex 0).1
  (⟨node, 0, false, .listNodes, []⟩, if node < t.tableSize then slot node else none)

/-- `hashTableStartDo`: the handle, and the entry that the pointer leads to. `treeWalk` is the walk
over the tree node pool. `none` is an assertion that fails. -/
def hashTableStartDo (treeWalk : List (Node α)) : Option (J9HashTableState α × Option α) :=
  match t.nodes with
  | .slots slot => some (t.slotsFrom slot 0)
  | .buckets head =>
    if t.numberOfNodes - t.numberOfTreeNodes > 0 then
      let link := skipEmpty (fun i => (head i).chain) t.tableSize 0 0
      ((head link.1).chain[link.2]?).map fun node =>
        (⟨link.1, link.2, false, .listNodes, []⟩, some node.data)
    else if t.numberOfTreeNodes > 0 then
      treeWalk.head?.map fun node => (⟨0, 0, false, .treeNodes, treeWalk⟩, some node.data)
    else some (⟨0, 0, false, .finished, []⟩, none)

/-- `hashTableNextDo`. `none` is data behind a `NULL` pointer. -/
def hashTableNextDo (treeWalk : List (Node α)) (handle : J9HashTableState α) :
    Option (J9HashTableState α × Option α) :=
  match t.nodes with
  | .slots slot => some (t.slotsFrom slot (handle.bucketIndex + 1))
  | .buckets head =>
    match handle.iterateState with
    | .listNodes =>
      let index := if handle.didDeleteCurrentNode then handle.index else handle.index + 1
      let link := skipEmpty (fun i => (head i).chain) (t.tableSize - handle.bucketIndex)
        handle.bucketIndex index
      if link.1 < t.tableSize then
        ((head link.1).chain[link.2]?).map fun node =>
          (⟨link.1, link.2, false, .listNodes, []⟩, some node.data)
      else if t.numberOfTreeNodes > 0 then
        treeWalk.head?.map fun node =>
          (⟨link.1, link.2, false, .treeNodes, treeWalk⟩, some node.data)
      else some (⟨link.1, link.2, false, .finished, []⟩, none)
    | .treeNodes =>
      match handle.poolState.tail with
      | [] => some ({ handle with iterateState := .finished, poolState := [] }, none)
      | node :: rest => some ({ handle with poolState := node :: rest }, some node.data)
    | .finished => some (handle, none)

/-- `hashTableDoRemove`. A space-optimised table has no such operation, and its result is asserted
to be 0 for a tree node. -/
def hashTableDoRemove [DecidableEq α] (fns : HashFunctions α) (handle : J9HashTableState α) :
    Option (J9HashTable α × J9HashTableState α) :=
  match t.nodes with
  | .slots _ => none
  | .buckets head =>
    match handle.iterateState with
    | .listNodes =>
      ((head handle.bucketIndex).chain[handle.index]?).map fun _ =>
        ({ t with
          nodes := .buckets (Function.update head handle.bucketIndex
            (.list ((head handle.bucketIndex).chain.eraseIdx handle.index)))
          numberOfNodes := t.numberOfNodes - 1 }, { handle with didDeleteCurrentNode := true })
    | .treeNodes =>
      match handle.poolState.head? with
      | none => none
      | some node =>
        match t.hashTableRemove fns node.data with
        | some (t, some _) => some (t, handle)
        | _ => none
    | .finished => some (t, handle)

/-- The loop of `hashTableForEachDo`. The function is called with the entry and the user data, and
says whether to remove the entry. `none` is a step without a result. -/
def walkLoop [DecidableEq α] (fns : HashFunctions α) (treeWalk : List (Node α))
    (doFn : α → σ → Bool × σ) :
    (fuel : ℕ) → J9HashTable α → J9HashTableState α → Option α → σ → Option (J9HashTable α × σ)
  | _, t, _, none, user => some (t, user)
  | 0, _, _, some _, _ => none
  | fuel + 1, t, handle, some node, user =>
    let answer := doFn node user
    match if answer.1 then t.hashTableDoRemove fns handle else some (t, handle) with
    | none => none
    | some (t, handle) =>
      match t.hashTableNextDo treeWalk handle with
      | none => none
      | some (handle, node) => walkLoop fns treeWalk doFn fuel t handle node answer.2

/-- A loop over `hashTableStartDo` and `hashTableNextDo` that may remove the current entry. -/
def hashTableWalk [DecidableEq α] (fns : HashFunctions α) (treeWalk : List (Node α))
    (doFn : α → σ → Bool × σ) (fuel : ℕ) (user : σ) : Option (J9HashTable α × σ) :=
  match t.hashTableStartDo treeWalk with
  | none => none
  | some (handle, node) => walkLoop fns treeWalk doFn fuel t handle node user

/-- `hashTableForEachDo`, which is for tables that have a pool. -/
def hashTableForEachDo [DecidableEq α] (fns : HashFunctions α) (treeWalk : List (Node α))
    (doFn : α → σ → Bool × σ) (fuel : ℕ) (user : σ) : Option (J9HashTable α × σ) :=
  if t.isSpaceOpt then none else t.hashTableWalk fns treeWalk doFn fuel user

end J9HashTable

/-! ### Chains -/

/-- What a walk from a link on comes to in the chains. -/
def chainsFrom (chain : ℕ → List β) : (left bucketIndex index : ℕ) → List β
  | 0, _, _ => []
  | left + 1, bucketIndex, index =>
    (chain bucketIndex).drop index ++ chainsFrom chain left (bucketIndex + 1) 0

theorem chainsFrom_eq (chain : ℕ → List β) (left bucketIndex : ℕ) :
    chainsFrom chain left bucketIndex 0 = (List.range' bucketIndex left).flatMap chain := by
  induction left generalizing bucketIndex with
  | zero => rfl
  | succ left ih => rw [chainsFrom, ih, List.range'_succ, List.flatMap_cons, List.drop_zero]

/-- The first link that leads to a node, or the end of the array. -/
theorem skipEmpty_spec (chain : ℕ → List β) (n left bucketIndex index : ℕ)
    (hn : bucketIndex + left = n) :
    ((skipEmpty chain left bucketIndex index).1 = n ∧
        chainsFrom chain left bucketIndex index = []) ∨
      ∃ node, (skipEmpty chain left bucketIndex index).1 < n ∧
        (chain (skipEmpty chain left bucketIndex index).1)[
          (skipEmpty chain left bucketIndex index).2]? = some node ∧
        chainsFrom chain left bucketIndex index = node ::
          chainsFrom chain (n - (skipEmpty chain left bucketIndex index).1)
            (skipEmpty chain left bucketIndex index).1
            ((skipEmpty chain left bucketIndex index).2 + 1) := by
  induction left generalizing bucketIndex index with
  | zero => exact Or.inl ⟨hn, rfl⟩
  | succ left ih =>
    cases hcell : (chain bucketIndex)[index]? with
    | none =>
      rw [skipEmpty, hcell, Option.isNone_none, if_pos rfl, chainsFrom,
        List.drop_eq_nil_of_le (List.getElem?_eq_none_iff.1 hcell), List.nil_append]
      exact ih (bucketIndex + 1) 0 (by omega)
    | some node =>
      refine Or.inr ⟨node, ?_⟩
      rw [skipEmpty, hcell, Option.isNone_some, if_neg Bool.noConfusion]
      refine ⟨by omega, hcell, ?_⟩
      rw [show n - bucketIndex = left + 1 by omega, chainsFrom, chainsFrom, ← List.cons_append,
        List.drop_eq_getElem?_toList_append, hcell]
      rfl

theorem chainsFrom_of_lt (chain : ℕ → List β) {n bucketIndex : ℕ} (h : bucketIndex < n)
    (index : ℕ) : chainsFrom chain (n - bucketIndex) bucketIndex index =
      (chain bucketIndex).drop index ++
        chainsFrom chain (n - (bucketIndex + 1)) (bucketIndex + 1) 0 := by
  rw [show n - bucketIndex = n - (bucketIndex + 1) + 1 by omega, chainsFrom]

theorem chainsFrom_congr {chain chain' : ℕ → List β} {left bucketIndex : ℕ}
    (h : ∀ i, bucketIndex ≤ i → chain' i = chain i) (index : ℕ) :
    chainsFrom chain' left bucketIndex index = chainsFrom chain left bucketIndex index := by
  induction left generalizing bucketIndex index with
  | zero => rfl
  | succ left ih =>
    rw [chainsFrom, chainsFrom, h bucketIndex le_rfl]
    rw [ih fun i hi => h i ((Nat.le_succ _).trans hi)]

/-! ### Where a walk is -/

namespace J9HashTable

variable {t t' : J9HashTable α} {treeWalk : List (Node α)} {handle handle' : J9HashTableState α}
  {x : α}

/-- The entries that a walk still comes to. -/
def pending (t : J9HashTable α) (treeWalk : List (Node α)) (handle : J9HashTableState α) : List α :=
  match t.nodes with
  | .slots slot => chainsFrom (fun i => (slot i).toList) (t.tableSize - (handle.bucketIndex + 1))
      (handle.bucketIndex + 1) 0
  | .buckets head =>
    match handle.iterateState with
    | .listNodes => (chainsFrom (fun i => (head i).chain) (t.tableSize - handle.bucketIndex)
        handle.bucketIndex
        (if handle.didDeleteCurrentNode then handle.index else handle.index + 1) ++
          treeWalk).map Node.data
    | .treeNodes => handle.poolState.tail.map Node.data
    | .finished => []

/-- `hashTableNextDo` may be called: a walk over list nodes will go on with those in trees. -/
def CanGoOn (t : J9HashTable α) (treeWalk : List (Node α)) (handle : J9HashTableState α) : Prop :=
  match t.nodes with
  | .slots _ => handle.bucketIndex < t.tableSize
  | .buckets _ => handle.iterateState = .listNodes →
      handle.bucketIndex < t.tableSize ∧ treeWalk.length = t.numberOfTreeNodes

/-- The handle is at an entry that has not been removed. -/
def IsAt (t : J9HashTable α) (handle : J9HashTableState α) (x : α) : Prop :=
  match t.nodes with
  | .slots slot => slot handle.bucketIndex = some x
  | .buckets head =>
    match handle.iterateState with
    | .listNodes => handle.didDeleteCurrentNode = false ∧
        ∃ node, (head handle.bucketIndex).chain[handle.index]? = some node ∧ node.data = x
    | .treeNodes => ∃ node, handle.poolState.head? = some node ∧ node.data = x
    | .finished => False

/-- What a step of a walk returns if `entries` are those that it still comes to. -/
inductive StepsTo (t : J9HashTable α) (treeWalk : List (Node α)) :
    List α → Option (J9HashTableState α × Option α) → Prop where
  | ends (handle : J9HashTableState α) : StepsTo t treeWalk [] (some (handle, none))
  | node (handle : J9HashTableState α) (x : α) (hat : t.IsAt handle x)
      (hgo : t.CanGoOn treeWalk handle) :
      StepsTo t treeWalk (x :: t.pending treeWalk handle) (some (handle, some x))

theorem StepsTo.of_pending {rest : List α} (hpending : t.pending treeWalk handle = rest)
    (hat : t.IsAt handle x) (hgo : t.CanGoOn treeWalk handle) :
    StepsTo t treeWalk (x :: rest) (some (handle, some x)) :=
  hpending ▸ .node handle x hat hgo

/-- A step comes to a node of the tree node pool. -/
theorem treeNode_steps {head : ℕ → Bucket α} (hbuckets : t.nodes = .buckets head)
    (bucketIndex index : ℕ) (deleted : Bool) (node : Node α) (rest : List (Node α)) :
    StepsTo t treeWalk ((node :: rest).map Node.data)
      (some (⟨bucketIndex, index, deleted, .treeNodes, node :: rest⟩, some node.data)) := by
  apply StepsTo.of_pending
  · rw [pending, hbuckets]
    rfl
  · rw [IsAt, hbuckets]
    exact ⟨node, rfl, rfl⟩
  · rw [CanGoOn, hbuckets]
    exact fun h => by cases h

theorem slotsFrom_steps {slot : ℕ → Option α} (hslots : t.nodes = .slots slot) {bucketIndex : ℕ}
    (hle : bucketIndex ≤ t.tableSize) :
    StepsTo t treeWalk (chainsFrom (fun i => (slot i).toList) (t.tableSize - bucketIndex)
      bucketIndex 0) (some (t.slotsFrom slot bucketIndex)) := by
  rw [slotsFrom]
  obtain ⟨hend, hnil⟩ | ⟨node, hlt, hcell, hrest⟩ := skipEmpty_spec (fun i => (slot i).toList)
    t.tableSize (t.tableSize - bucketIndex) bucketIndex 0 (by omega)
  · rw [hnil, hend, if_neg (lt_irrefl _)]
    exact .ends _
  · obtain ⟨⟨b, j⟩, hlink⟩ : ∃ link, link = skipEmpty (fun i => (slot i).toList)
      (t.tableSize - bucketIndex) bucketIndex 0 := ⟨_, rfl⟩
    rw [← hlink] at hlt hcell hrest ⊢
    rw [hrest, if_pos hlt, chainsFrom_of_lt _ hlt]
    cases hslot : slot b with
    | none =>
      rw [hslot] at hcell
      cases hcell
    | some x =>
      rw [hslot] at hcell
      obtain rfl : x = node := by
        cases j with
        | zero => exact Option.some_inj.1 hcell
        | succ j => cases hcell
      rw [List.drop_eq_nil_of_le (Nat.succ_le_succ (Nat.zero_le j)), List.nil_append]
      apply StepsTo.of_pending
      · rw [pending, hslots]
      · rw [IsAt, hslots]
        exact hslot
      · rw [CanGoOn, hslots]
        exact hlt

/-- A walk over the chains goes on with the trees. -/
theorem treeWalk_steps {head : ℕ → Bucket α} (hbuckets : t.nodes = .buckets head)
    (hlength : treeWalk.length = t.numberOfTreeNodes) (bucketIndex index : ℕ) :
    StepsTo t treeWalk (treeWalk.map Node.data)
      (if t.numberOfTreeNodes > 0 then
        treeWalk.head?.map fun node =>
          (⟨bucketIndex, index, false, .treeNodes, treeWalk⟩, some node.data)
      else some (⟨bucketIndex, index, false, .finished, []⟩, none)) := by
  cases treeWalk with
  | nil =>
    rw [List.length_nil] at hlength
    rw [← hlength, if_neg (lt_irrefl 0)]
    exact .ends _
  | cons node rest =>
    rw [List.length_cons] at hlength
    rw [if_pos (by omega)]
    exact treeNode_steps hbuckets bucketIndex index false node rest

/-- A step comes to a node of a chain. -/
theorem listNode_steps {head : ℕ → Bucket α} (hbuckets : t.nodes = .buckets head)
    (hlength : treeWalk.length = t.numberOfTreeNodes) {bucketIndex index : ℕ} {node : Node α}
    (hlt : bucketIndex < t.tableSize) (hcell : (head bucketIndex).chain[index]? = some node) :
    StepsTo t treeWalk ((node :: chainsFrom (fun i => (head i).chain) (t.tableSize - bucketIndex)
        bucketIndex (index + 1) ++ treeWalk).map Node.data)
      (((head bucketIndex).chain[index]?).map fun node =>
        (⟨bucketIndex, index, false, .listNodes, []⟩, some node.data)) := by
  rw [hcell, Option.map_some]
  apply StepsTo.of_pending
  · rw [pending, hbuckets]
    rfl
  · rw [IsAt, hbuckets]
    exact ⟨rfl, node, hcell, rfl⟩
  · rw [CanGoOn, hbuckets]
    exact fun _ => ⟨hlt, hlength⟩

/-- `hashTableNextDo` comes to the first of the entries that are still to come. -/
theorem hashTableNextDo_steps (hgo : t.CanGoOn treeWalk handle) :
    StepsTo t treeWalk (t.pending treeWalk handle) (t.hashTableNextDo treeWalk handle) := by
  cases hnodes : t.nodes with
  | slots slot =>
    rw [CanGoOn, hnodes] at hgo
    rw [pending, hashTableNextDo, hnodes]
    exact slotsFrom_steps hnodes hgo
  | buckets head =>
    rw [CanGoOn, hnodes] at hgo
    rw [pending, hashTableNextDo, hnodes]
    obtain ⟨bucketIndex, place, deleted, state, poolState⟩ := handle
    cases state with
    | listNodes =>
      obtain ⟨hlt, hlength⟩ := hgo rfl
      dsimp only
      obtain ⟨index, hindex⟩ : ∃ index, index = if deleted then place else place + 1 := ⟨_, rfl⟩
      rw [← hindex]
      dsimp only at hlt
      obtain ⟨hend, hnil⟩ | ⟨node, hnode, hcell, hrest⟩ := skipEmpty_spec (fun i => (head i).chain)
        t.tableSize (t.tableSize - bucketIndex) bucketIndex index (by omega)
      · rw [hnil, hend, if_neg (lt_irrefl _), List.nil_append]
        exact treeWalk_steps hnodes hlength _ _
      · rw [hrest, if_pos hnode]
        exact listNode_steps hnodes hlength hnode hcell
    | treeNodes =>
      dsimp only
      cases poolState.tail with
      | nil => exact .ends _
      | cons node rest => exact treeNode_steps hnodes bucketIndex place deleted node rest
    | finished => exact .ends _

/-- `hashTableStartDo` comes to the first entry of the table, if there is one. -/
theorem hashTableStartDo_steps [LinearOrder κ] {fns : HashFunctions α} {key : α → κ}
    (hwf : t.WellFormed fns key) (hwalk : treeWalk.Perm (t.nodes.treeNodes t.tableSize)) :
    ∃ all, all.Perm t.entries ∧ StepsTo t treeWalk all (t.hashTableStartDo treeWalk) := by
  cases hnodes : t.nodes with
  | slots slot =>
    refine ⟨chainsFrom (fun i => (slot i).toList) (t.tableSize - 0) 0 0, ?_, ?_⟩
    · rw [chainsFrom_eq, entries_slots hnodes, LinearProbing.stored, Nat.sub_zero,
        ← List.range_eq_range', List.filterMap_eq_flatMap_toList]
    · rw [hashTableStartDo, hnodes]
      exact slotsFrom_steps hnodes (Nat.zero_le _)
  | buckets head =>
    have hlength : treeWalk.length = t.numberOfTreeNodes := by rw [hwf.treeCount, hwalk.length_eq]
    have hchains : chainsFrom (fun i => (head i).chain) t.tableSize 0 0 = t.listNodes head := by
      rw [chainsFrom_eq, listNodes, ← List.range_eq_range']
    have hperm : ((t.listNodes head ++ treeWalk).map Node.data).Perm t.entries :=
      ((hwalk.append_left _).map _).trans (entries_perm_nodes hnodes)
    refine ⟨(t.listNodes head ++ treeWalk).map Node.data, hperm, ?_⟩
    have hcount := hperm.length_eq
    rw [← hwf.count, List.length_map, List.length_append, hlength] at hcount
    rw [hashTableStartDo, hnodes]
    dsimp only
    split
    · rename_i hlists
      obtain ⟨-, hnil⟩ | ⟨node, hnode, hcell, hrest⟩ := skipEmpty_spec (fun i => (head i).chain)
        t.tableSize t.tableSize 0 0 (Nat.zero_add _)
      · rw [hchains] at hnil
        rw [hnil, List.length_nil] at hcount
        omega
      · rw [← hchains, hrest]
        exact listNode_steps hnodes hlength hnode hcell
    · rename_i hlists
      have hnil : t.listNodes head = [] := List.length_eq_zero_iff.1 (by omega)
      rw [hnil, List.nil_append]
      exact treeWalk_steps hnodes hlength _ _

/-! ### Removing while walking -/

section Removing

variable [LinearOrder κ] [DecidableEq α] {fns : HashFunctions α} {key : α → κ}

/-- The current entry is removed, and the walk will come to the same others. -/
structure RemovedAt (fns : HashFunctions α) (key : α → κ) (treeWalk : List (Node α)) (x : α)
    (t : J9HashTable α) (handle : J9HashTableState α) (t' : J9HashTable α)
    (handle' : J9HashTableState α) : Prop where
  removed : Removed fns key x t t'
  pending : t'.pending treeWalk handle' = t.pending treeWalk handle
  canGoOn : t'.CanGoOn treeWalk handle'

/-- `hashTableDoRemove` in a chain. -/
theorem hashTableDoRemove_list (hwf : t.WellFormed fns key) {head : ℕ → Bucket α}
    (hbuckets : t.nodes = .buckets head) (hstate : handle.iterateState = .listNodes)
    (hat : t.IsAt handle x) (hgo : t.CanGoOn treeWalk handle) :
    ∃ t' handle', t.hashTableDoRemove fns handle = some (t', handle') ∧
      RemovedAt fns key treeWalk x t handle t' handle' := by
  obtain ⟨b, i, deleted, state, poolState⟩ := handle
  cases hstate
  rw [IsAt, hbuckets] at hat
  rw [CanGoOn, hbuckets] at hgo
  obtain ⟨hdeleted, node, hcell, rfl⟩ := hat
  obtain ⟨hlt, hlength⟩ := hgo rfl
  dsimp only at hdeleted hcell hlt
  subst hdeleted
  obtain ⟨hi, -⟩ := List.getElem?_eq_some_iff.1 hcell
  obtain ⟨chain, hchain⟩ : ∃ chain, head b = .list chain := by
    cases hb : head b with
    | list chain => exact ⟨chain, rfl⟩
    | tree root =>
      rw [hb] at hi
      exact absurd hi (Nat.not_lt_zero _)
  have hc : (head b).chain = chain := by rw [hchain, Bucket.chain]
  rw [hc] at hcell
  obtain ⟨hi, hnode⟩ := List.getElem?_eq_some_iff.1 hcell
  obtain ⟨t', ht'⟩ : ∃ t', t' = { t with
      nodes := .buckets (Function.update head b (.list (chain.eraseIdx i)))
      numberOfNodes := t.numberOfNodes - 1 } := ⟨_, rfl⟩
  refine ⟨t', ⟨b, i, true, .listNodes, poolState⟩, ?_, ?_, ?_, ?_⟩
  · rw [hashTableDoRemove, hbuckets]
    dsimp only
    rw [hc, hcell, ht']
    rfl
  · refine removed_bucket hwf hbuckets hlt (b := .list (chain.eraseIdx i)) ?_
      (fun _ h => Bucket.noConfusion rfl (heq_of_eq h)) (fun _ => rfl) (by rw [ht']) (by rw [ht'])
      (by rw [ht']; rfl) (by rw [ht']) (by rw [ht', hchain]; rfl)
    rw [hchain, Bucket.nodes_list, Bucket.nodes_list, ← hnode]
    exact (List.getElem_cons_eraseIdx_perm hi).symm
  · have hothers : ∀ j, b + 1 ≤ j →
        (Function.update head b (.list (chain.eraseIdx i)) j).chain = (head j).chain := by
      intro j hj
      rw [Function.update_of_ne (Nat.ne_of_gt hj)]
    have hdrop : (chain.eraseIdx i).drop i = chain.drop (i + 1) := by
      rw [List.eraseIdx_eq_take_drop_succ, List.drop_left' (List.length_take_of_le hi.le)]
    rw [pending, pending, ht', hbuckets]
    dsimp only
    rw [if_pos rfl, if_neg Bool.noConfusion, chainsFrom_of_lt _ hlt, chainsFrom_of_lt _ hlt,
      chainsFrom_congr hothers, hc, Function.update_self, Bucket.chain, hdrop]
  · rw [CanGoOn, ht']
    exact fun _ => ⟨hlt, hlength⟩

/-- `hashTableDoRemove` in a tree. -/
theorem hashTableDoRemove_tree (hlaw : Lawful fns key t.collisionResilient)
    (hwf : t.WellFormed fns key) {head : ℕ → Bucket α} (hbuckets : t.nodes = .buckets head)
    (hstate : handle.iterateState = .treeNodes) (hat : t.IsAt handle x) (hx : x ∈ t.entries) :
    ∃ t' handle', t.hashTableDoRemove fns handle = some (t', handle') ∧
      RemovedAt fns key treeWalk x t handle t' handle' := by
  rw [IsAt, hbuckets] at hat
  dsimp only at hat
  rw [hstate] at hat
  obtain ⟨node, hhead, rfl⟩ := hat
  obtain ⟨t', p, hremove, -, hremoved⟩ := hashTableRemove_present hlaw hwf hx rfl
  obtain ⟨head', hbuckets'⟩ : ∃ head', t'.nodes = .buckets head' := by
    have hopt := hremoved.isSpaceOpt
    rw [isSpaceOpt, isSpaceOpt, hbuckets] at hopt
    cases hnodes' : t'.nodes with
    | slots slot =>
      rw [hnodes'] at hopt
      cases hopt
    | buckets head' => exact ⟨head', rfl⟩
  refine ⟨t', handle, ?_, hremoved, ?_, ?_⟩
  · rw [hashTableDoRemove, hbuckets]
    dsimp only
    rw [hstate, hhead]
    dsimp only
    rw [hremove]
  · rw [pending, pending, hbuckets, hbuckets']
    dsimp only
    rw [hstate]
  · rw [CanGoOn, hbuckets', hstate]
    intro h
    cases h

/-- The current entry of a table with a pool can be removed. -/
theorem hashTableDoRemove_spec (hlaw : Lawful fns key t.collisionResilient)
    (hwf : t.WellFormed fns key) (hpool : t.isSpaceOpt = false) (hat : t.IsAt handle x)
    (hgo : t.CanGoOn treeWalk handle) (hx : x ∈ t.entries) :
    ∃ t' handle', t.hashTableDoRemove fns handle = some (t', handle') ∧
      RemovedAt fns key treeWalk x t handle t' handle' := by
  cases hnodes : t.nodes with
  | slots slot =>
    rw [isSpaceOpt, hnodes] at hpool
    cases hpool
  | buckets head =>
    cases hstate : handle.iterateState with
    | listNodes => exact hashTableDoRemove_list hwf hnodes hstate hat hgo
    | treeNodes => exact hashTableDoRemove_tree hlaw hwf hnodes hstate hat hx
    | finished =>
      rw [IsAt, hnodes] at hat
      dsimp only at hat
      rw [hstate] at hat
      exact hat.elim

/-! ### The loop -/

/-- The entries that are not to be removed, and the user data after the calls for all of them. -/
def sift (doFn : α → σ → Bool × σ) : List α → σ → List α × σ
  | [], user => ([], user)
  | x :: rest, user =>
    let answer := doFn x user
    let below := sift doFn rest answer.2
    (if answer.1 then below.1 else x :: below.1, below.2)

/-- What becomes of the current entry of the loop: it is removed or kept, and the walk goes on with
the others. -/
theorem walkLoop_current {kept : List α} {remove : Bool} (hat : t.IsAt handle x)
    (hgo : t.CanGoOn treeWalk handle) (hlaw : Lawful fns key t.collisionResilient)
    (hwf : t.WellFormed fns key) (hkeep : t.isSpaceOpt = true → remove = false)
    (hentries : t.entries.Perm (kept ++ x :: t.pending treeWalk handle)) :
    ∃ t' handle', (if remove then t.hashTableDoRemove fns handle else some (t, handle)) =
        some (t', handle') ∧ t'.WellFormed fns key ∧
      t'.collisionResilient = t.collisionResilient ∧ t'.isSpaceOpt = t.isSpaceOpt ∧
      t'.CanGoOn treeWalk handle' ∧ t'.pending treeWalk handle' = t.pending treeWalk handle ∧
      t'.entries.Perm ((if remove then kept else kept ++ [x]) ++ t.pending treeWalk handle) := by
  cases remove with
  | true =>
    have hpool : t.isSpaceOpt = false := by
      rw [← Bool.not_eq_true]
      exact fun hopt => Bool.noConfusion (hkeep hopt)
    have hx : x ∈ t.entries :=
      hentries.mem_iff.2 (List.mem_append_right _ (List.mem_cons_self ..))
    obtain ⟨t', handle', hremove, hremoved, hpending, hgo'⟩ :=
      hashTableDoRemove_spec hlaw hwf hpool hat hgo hx
    refine ⟨t', handle', by rw [if_pos rfl]; exact hremove, hremoved.wf,
      congrArg (fun s => s.2.2.1) hremoved.settings, hremoved.isSpaceOpt, hgo', hpending, ?_⟩
    rw [if_pos rfl]
    exact ((hremoved.entries.symm.trans hentries).trans List.perm_middle).cons_inv
  | false =>
    refine ⟨t, handle, if_neg Bool.noConfusion, hwf, rfl, rfl, hgo, rfl, ?_⟩
    rw [if_neg Bool.noConfusion, List.append_assoc]
    exact hentries

/-- The loop from a step on: the entries are those that have been kept and those that are still
to come. -/
theorem walkLoop_spec (doFn : α → σ → Bool × σ) (user : σ) {all : List α} (kept : List α) {fuel : ℕ}
    {step : Option (J9HashTableState α × Option α)} (hsteps : t.StepsTo treeWalk all step)
    (hlaw : Lawful fns key t.collisionResilient) (hwf : t.WellFormed fns key)
    (hkeep : t.isSpaceOpt = true → ∀ x user, (doFn x user).1 = false)
    (hentries : t.entries.Perm (kept ++ all)) (hfuel : all.length ≤ fuel) :
    ∃ handle r t', step = some (handle, r) ∧
      walkLoop fns treeWalk doFn fuel t handle r user = some (t', (sift doFn all user).2) ∧
      t'.WellFormed fns key ∧ t'.entries.Perm (kept ++ (sift doFn all user).1) := by
  induction fuel generalizing t user all kept step with
  | zero =>
    cases hsteps with
    | ends handle => exact ⟨handle, none, t, rfl, rfl, hwf, hentries⟩
    | node => exact absurd hfuel (Nat.not_succ_le_zero _)
  | succ fuel ih =>
    cases hsteps with
    | ends handle => exact ⟨handle, none, t, rfl, rfl, hwf, hentries⟩
    | node handle x hat hgo =>
      rw [List.length_cons] at hfuel
      obtain ⟨t₁, handle₁, hcurrent, hwf₁, hresilient, hopt, hgo₁, hpending, hentries₁⟩ :=
        walkLoop_current hat hgo hlaw hwf (fun h => hkeep h x user) hentries
      rw [← hresilient] at hlaw
      rw [← hopt] at hkeep
      have hsteps₁ := hashTableNextDo_steps hgo₁
      rw [hpending] at hsteps₁
      obtain ⟨handle₂, r, t', hnext, hloop, hwf', hentries'⟩ :=
        ih (doFn x user).2 _ hsteps₁ hlaw hwf₁ hkeep hentries₁ (Nat.le_of_succ_le_succ hfuel)
      refine ⟨handle, some x, t', rfl, ?_, hwf', ?_⟩
      · rw [walkLoop, hcurrent]
        dsimp only
        rw [hnext]
        exact hloop
      · rw [sift]
        cases hanswer : (doFn x user).1 with
        | true =>
          rw [hanswer] at hentries'
          exact hentries'
        | false =>
          rw [hanswer, if_neg Bool.noConfusion, List.append_assoc] at hentries'
          exact hentries'

/-- A walk comes to every entry that is in the table, once, in an order that does not depend on
which ones are removed. `hashTableForEachDo` removes those that the function says, and keeps the
others in a table that is in order. -/
theorem hashTableForEachDo_visits (hlaw : Lawful fns key t.collisionResilient)
    (hwf : t.WellFormed fns key) (hwalk : treeWalk.Perm (t.nodes.treeNodes t.tableSize)) :
    ∃ visited, visited.Perm t.entries ∧ ∀ (σ : Type) (doFn : α → σ → Bool × σ) (user : σ) fuel,
      (t.isSpaceOpt = true → ∀ x user, (doFn x user).1 = false) → t.numberOfNodes ≤ fuel →
      ∃ t', t.hashTableWalk fns treeWalk doFn fuel user = some (t', (sift doFn visited user).2) ∧
        (t.isSpaceOpt = false → t.hashTableForEachDo fns treeWalk doFn fuel user =
          some (t', (sift doFn visited user).2)) ∧
        t'.WellFormed fns key ∧ t'.entries.Perm (sift doFn visited user).1 := by
  obtain ⟨visited, hperm, hsteps⟩ := hashTableStartDo_steps hwf hwalk
  refine ⟨visited, hperm, fun σ doFn user fuel hkeep hfuel => ?_⟩
  rw [hwf.count, ← hperm.length_eq] at hfuel
  obtain ⟨handle, r, t', hstart, hloop, hwf', hentries⟩ :=
    walkLoop_spec doFn user [] hsteps hlaw hwf hkeep hperm.symm hfuel
  have hrun : t.hashTableWalk fns treeWalk doFn fuel user =
      some (t', (sift doFn visited user).2) := by
    rw [hashTableWalk, hstart]
    exact hloop
  refine ⟨t', hrun, fun hpool => ?_, hwf', hentries⟩
  rw [hashTableForEachDo, hpool, if_neg Bool.noConfusion]
  exact hrun

end Removing

/-- The even ones of five numbers are removed, and all five are added up. -/
theorem hashTableForEachDo_visits_numberTable : ∃ visited, visited.Perm (numberTable 5).entries ∧
    ∃ t', (numberTable 5).hashTableForEachDo numberFns []
        (fun x sum => (decide (x % 2 = 0), sum + x)) 5 0 =
      some (t', (sift (fun x sum => (decide (x % 2 = 0), sum + x)) visited 0).2) := by
  have hwalk : ([] : List (Node ℕ)).Perm ((numberTable 5).nodes.treeNodes 17) := by decide
  obtain ⟨visited, hperm, hruns⟩ := hashTableForEachDo_visits lawful_numberFns
    (numberTable_wellFormed (n := 5) (by decide) (by decide)) hwalk
  obtain ⟨t', -, hrun, -⟩ := hruns ℕ (fun x sum => (decide (x % 2 = 0), sum + x)) 0 5
    (fun h => Bool.noConfusion h) le_rfl
  exact ⟨visited, hperm, t', hrun rfl⟩

end J9HashTable

end OMR.Util.Hash
