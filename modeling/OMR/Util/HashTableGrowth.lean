import OMR.Util.HashTableInvariant

/-!
# Growing a hash table keeps its entries

The three ways in which a table grows, and the two in which its representation changes
with it, keep the entries and the counters. Whether one of them ends at a `NULL` pointer,
and which buckets are trees afterwards, follows from the entries and the allocations.
-/

namespace OMR.Util.Hash

open OMR.Lib OMR.Util.AVL

variable {α κ : Type*} {fns : HashFunctions α} {n i : ℕ}

/-! ### New buckets -/

/-- Each new bucket has the chain of the nodes that belong there, the last one pushed first. -/
theorem pushNodes_eq (fns : HashFunctions α) (n : ℕ) (nodes : List (Node α)) (i : ℕ) :
    fns.pushNodes n nodes i =
      .list (nodes.filter fun node => fns.home n node.data = i).reverse := by
  induction nodes using List.reverseRecOn with
  | nil => rfl
  | append_singleton nodes node ih =>
    have hstep : fns.pushNodes n (nodes ++ [node]) =
        fns.pushNode n (fns.pushNodes n nodes) node := by
      simp [HashFunctions.pushNodes]
    rw [hstep, HashFunctions.pushNode, List.filter_append, List.reverse_append]
    by_cases hi : fns.home n node.data = i
    · subst hi
      rw [Function.update_self, ih]
      simp [Bucket.chain]
    · rw [Function.update_of_ne (Ne.symm hi), ih]
      simp [hi]

theorem pushNodes_eq_chain (fns : HashFunctions α) (n : ℕ) (nodes : List (Node α)) (i : ℕ) :
    fns.pushNodes n nodes i = .list (fns.pushNodes n nodes i).chain := by
  rw [pushNodes_eq]
  rfl

variable {key : α → κ}

theorem bucketOk_list [LinearOrder κ] {chain : List (Node α)} (hd : KeysDistinct key chain)
    (hhome : ∀ node ∈ chain, fns.home n node.data = i) :
    BucketOk fns key n i (.list chain) :=
  ⟨by simpa using hhome, by simpa using hd, fun _ h => by cases h⟩

theorem bucketOk_pushNodes [LinearOrder κ] {nodes : List (Node α)} (hd : KeysDistinct key nodes)
    (i : ℕ) : BucketOk fns key n i (fns.pushNodes n nodes i) := by
  rw [pushNodes_eq]
  refine bucketOk_list ((hd.sublist List.filter_sublist).perm (List.reverse_perm _).symm) ?_
  intro node hnode
  simpa using (List.mem_filter.1 (List.mem_reverse.1 hnode)).2

/-- The new buckets together have the nodes. -/
theorem pushNodes_perm (nodes : List (Node α)) (hn : 0 < n) :
    ((List.range n).flatMap fun i => (fns.pushNodes n nodes i).chain).Perm nodes := by
  have hchain : ∀ i, (fns.pushNodes n nodes i).chain.Perm
      (nodes.filter fun node => fns.home n node.data = i) := by
    intro i
    rw [pushNodes_eq]
    exact List.reverse_perm _
  refine (List.Perm.flatMap_left _ fun i _ => hchain i).trans ?_
  exact flatMap_filter_perm (fun node => fns.home n node.data) nodes fun node _ =>
    Nat.mod_lt _ hn

/-! ### Lists into trees -/

section Tree

variable [LinearOrder κ] [DecidableEq α]

/-- `avl_insert` of a new key puts the node among the others. -/
theorem avlInsert_perm (hlaw : Lawful fns key true) {root : AVL.Tree (Node α)}
    (hb : WellBalanced root) (ho : root.Ordered (Node.key key)) (node : Node α)
    (hnew : ∀ m ∈ root, Node.key key m ≠ Node.key key node) :
    (avlInsert fns.compareNodes root node).2 = node ∧
      (avlInsert fns.compareNodes root node).1.Ordered (Node.key key) ∧
      WellBalanced (avlInsert fns.compareNodes root node).1 ∧
      (avlInsert fns.compareNodes root node).1.inorder.Perm (node :: root.inorder) := by
  obtain ⟨hfind, hord, hbal, -⟩ := avlInsert_of_not_mem hlaw.compareNodes hb ho hnew
  refine ⟨hfind, hord, hbal, ?_⟩
  obtain ⟨m, hm, hk, -⟩ | ⟨-, xs, ys, hin, -, -, hrep⟩ :=
    insertNode_spec hlaw.compareNodes node hb ho
  · exact absurd hk (hnew m hm)
  · rw [avlInsert, hin]
    exact hrep.inorder ▸ List.perm_middle

/-- The tree that `listToTree` builds. -/
def treeOf (fns : HashFunctions α) (alloc : Allocations α) (chain : List (Node α)) :
    AVL.Tree (Node α) :=
  chain.foldl (fun tree nodeToCopy => (avlInsert fns.compareNodes tree
    ⟨alloc.treeCopy nodeToCopy.address, nodeToCopy.data⟩).1) .nil

/-- It is a tree of copies of the nodes. -/
theorem treeOf_spec (hlaw : Lawful fns key true) (alloc : Allocations α) {chain : List (Node α)}
    (hd : KeysDistinct key chain) :
    (treeOf fns alloc chain).Ordered (Node.key key) ∧ WellBalanced (treeOf fns alloc chain) ∧
      (treeOf fns alloc chain).inorder.Perm
        (chain.map fun node => ⟨alloc.treeCopy node.address, node.data⟩) := by
  induction chain using List.reverseRecOn with
  | nil => exact ⟨List.Pairwise.nil, wellBalanced_nil, List.Perm.refl _⟩
  | append_singleton chain node ih =>
    obtain ⟨hold, -, hnew⟩ := List.pairwise_append.1 hd
    obtain ⟨ho, hb, hperm⟩ := ih hold
    have hstep : treeOf fns alloc (chain ++ [node]) = (avlInsert fns.compareNodes
        (treeOf fns alloc chain) ⟨alloc.treeCopy node.address, node.data⟩).1 := by
      simp [treeOf]
    have hcopy : ∀ m ∈ treeOf fns alloc chain, Node.key key m ≠
        Node.key key ⟨alloc.treeCopy node.address, node.data⟩ := by
      intro m hm
      obtain ⟨m', hm', rfl⟩ := List.mem_map.1 (hperm.mem_iff.1 hm)
      exact hnew m' hm' node (List.mem_singleton_self _)
    obtain ⟨-, ho', hb', hperm'⟩ := avlInsert_perm hlaw hb ho _ hcopy
    rw [hstep]
    refine ⟨ho', hb', hperm'.trans ?_⟩
    rw [List.map_append, List.map_singleton]
    exact (hperm.cons _).trans (List.perm_append_singleton _ _).symm

theorem bucketOk_treeOf (hlaw : Lawful fns key true) (alloc : Allocations α)
    {chain : List (Node α)} (hd : KeysDistinct key chain)
    (hhome : ∀ node ∈ chain, fns.home n node.data = i) :
    BucketOk fns key n i (.tree (treeOf fns alloc chain)) := by
  obtain ⟨ho, hb, hperm⟩ := treeOf_spec hlaw alloc hd
  have hdata : KeysDistinct key (treeOf fns alloc chain).inorder := by
    refine hd.of_data ((hperm.map Node.data).trans (List.Perm.of_eq ?_))
    rw [List.map_map]
    rfl
  refine ⟨fun node hnode => ?_, by simpa using hdata, fun root hroot => ?_⟩
  · rw [Bucket.nodes_tree] at hnode
    obtain ⟨m, hm, rfl⟩ := List.mem_map.1 (hperm.mem_iff.1 hnode)
    exact hhome m hm
  · cases hroot
    exact ⟨ho, hb⟩

end Tree

namespace J9HashTable

variable {t t' : J9HashTable α}

/-! ### The entries of a table, as nodes and by their keys -/

theorem treeNodes_buckets {head : ℕ → Bucket α} (h : t.nodes = .buckets head) :
    t.nodes.treeNodes t.tableSize =
      (List.range t.tableSize).flatMap fun i => (head i).treeNodes := by
  rw [h]
  rfl

/-- The entries are those of the list nodes and of the tree nodes. -/
theorem entries_perm_nodes {head : ℕ → Bucket α} (h : t.nodes = .buckets head) :
    ((t.listNodes head ++ t.nodes.treeNodes t.tableSize).map Node.data).Perm t.entries := by
  have hsplit := List.flatMap_append_perm (List.range t.tableSize)
    (fun i => (head i).chain) fun i => (head i).treeNodes
  rw [treeNodes_buckets h]
  refine (hsplit.map Node.data).trans (List.Perm.of_eq ?_)
  rw [entries_buckets h, List.map_flatMap]
  rfl

theorem wellFormed_slots [LinearOrder κ] (h : t.WellFormed fns key) {slot : ℕ → Option α}
    (hslots : t.nodes = .slots slot) :
    LinearProbing.Probed t.tableSize (fns.home t.tableSize) slot ∧
      LinearProbing.Distinct t.tableSize key slot ∧ t.numberOfNodes < t.tableSize ∧
      t.collisionResilient = false := by
  have harray := h.array
  rwa [ArrayOk, hslots] at harray

theorem wellFormed_buckets [LinearOrder κ] (h : t.WellFormed fns key) {head : ℕ → Bucket α}
    (hbuckets : t.nodes = .buckets head) :
    ∀ i < t.tableSize, BucketOk fns key t.tableSize i (head i) ∧
      (t.collisionResilient = false → head i = .list (head i).chain) := by
  have harray := h.array
  rwa [ArrayOk, hbuckets] at harray

/-- No two entries have the same key. -/
theorem WellFormed.entries_distinct [LinearOrder κ] {resilient : Bool}
    (hlaw : Lawful fns key resilient) (h : t.WellFormed fns key) :
    t.entries.Pairwise fun a b => key a ≠ key b := by
  cases hnodes : t.nodes with
  | slots slot =>
    obtain ⟨-, hd, -⟩ := wellFormed_slots h hnodes
    rw [entries_slots hnodes, LinearProbing.stored, List.pairwise_filterMap]
    refine List.pairwise_lt_range.imp_of_mem fun {i j} hi hj hij x hx y hy hkey => ?_
    exact absurd (hd i (List.mem_range.1 hi) j (List.mem_range.1 hj) x y hx hy hkey) hij.ne
  | buckets head =>
    have hok := wellFormed_buckets h hnodes
    rw [entries_buckets hnodes, List.pairwise_flatMap]
    refine ⟨fun i hi => KeysDistinct.map_iff.1 (hok i (List.mem_range.1 hi)).1.distinct, ?_⟩
    refine List.pairwise_lt_range.imp_of_mem fun {i j} hi hj hij x hx y hy hkey => ?_
    obtain ⟨m, hm, rfl⟩ := List.mem_map.1 hx
    obtain ⟨m', hm', rfl⟩ := List.mem_map.1 hy
    have hhome := (hok i (List.mem_range.1 hi)).1.home m hm
    have hhome' := (hok j (List.mem_range.1 hj)).1.home m' hm'
    rw [hlaw.home_eq hkey] at hhome
    omega

/-- The number of entries that belong to one of `n` buckets. -/
def crowd (t : J9HashTable α) (fns : HashFunctions α) (n i : ℕ) : ℕ :=
  (t.entries.filter fun x => fns.home n x = i).length

/-- The chain of a new bucket is as long as its crowd. -/
theorem length_pushNodes {nodes : List (Node α)} (hdata : (nodes.map Node.data).Perm t.entries)
    (n i : ℕ) : (fns.pushNodes n nodes i).chain.length = t.crowd fns n i := by
  have hfilter := (hdata.filter fun x => decide (fns.home n x = i)).length_eq
  rw [List.filter_map, List.length_map] at hfilter
  rw [pushNodes_eq, crowd, ← hfilter, Bucket.chain, List.length_reverse]
  rfl

/-- New buckets of the nodes, some of them made into trees of copies, are well formed and have
the entries of the nodes. -/
theorem wellFormed_of_pushNodes [LinearOrder κ] {nodes : List (Node α)} {head' : ℕ → Bucket α}
    (hnodes : t'.nodes = .buckets head') (hpos : 0 < t'.tableSize)
    (hdata : ∀ i < t'.tableSize, ((head' i).nodes.map Node.data).Perm
      ((fns.pushNodes t'.tableSize nodes i).chain.map Node.data))
    (hok : ∀ i < t'.tableSize, BucketOk fns key t'.tableSize i (head' i) ∧
      (t'.collisionResilient = false → head' i = .list (head' i).chain))
    (hcount : t'.numberOfNodes = nodes.length)
    (htree : t'.numberOfTreeNodes =
      ((List.range t'.tableSize).map fun i => (head' i).treeNodes.length).sum) :
    t'.WellFormed fns key ∧ t'.entries.Perm (nodes.map Node.data) := by
  have hentries : t'.entries.Perm (nodes.map Node.data) := by
    rw [entries_buckets hnodes]
    refine (List.Perm.flatMap_left _ fun i hi => hdata i (List.mem_range.1 hi)).trans ?_
    rw [← List.map_flatMap]
    exact (pushNodes_perm nodes hpos).map Node.data
  refine ⟨⟨hpos, ?_, ?_, ?_⟩, hentries⟩
  · rw [hcount, hentries.length_eq, List.length_map]
  · rw [htree, treeNodes_buckets hnodes, List.length_flatMap]
  · rw [ArrayOk, hnodes]
    exact hok

/-- What a table is made with. -/
def settings (t : J9HashTable α) : Bool × Bool × Bool × ℕ :=
  (t.canGrow, t.canRehash, t.collisionResilient, t.listToTreeThreshold)

/-- The table may have other buckets or slots. Its entries and what it is made with are kept. -/
structure Kept [LinearOrder κ] (fns : HashFunctions α) (key : α → κ) (t t' : J9HashTable α) :
    Prop where
  wf : t'.WellFormed fns key
  entries : t'.entries.Perm t.entries
  count : t'.numberOfNodes = t.numberOfNodes
  settings : t'.settings = t.settings

/-- The bucket `i` of the table is a tree. -/
def bucketIsTree (t : J9HashTable α) (i : ℕ) : Prop :=
  ∃ head root, t.nodes = .buckets head ∧ head i = .tree root

/-- New buckets without trees keep the entries. -/
theorem kept_of_pushNodes [LinearOrder κ] {resilient : Bool} (hlaw : Lawful fns key resilient)
    (hwf : t.WellFormed fns key) {nodes : List (Node α)}
    (hdata : (nodes.map Node.data).Perm t.entries)
    (hhead : t'.nodes = .buckets (fns.pushNodes t'.tableSize nodes)) (hpos : 0 < t'.tableSize)
    (htree : t'.numberOfTreeNodes = 0) (hcount : t'.numberOfNodes = t.numberOfNodes)
    (hsettings : t'.settings = t.settings) :
    Kept fns key t t' ∧ ∀ i, ¬t'.bucketIsTree i := by
  have hdistinct : KeysDistinct key nodes := KeysDistinct.map_iff.2
    ((hdata.symm.pairwise_iff fun hab => hab.symm).1 (hwf.entries_distinct hlaw))
  have hlist := pushNodes_eq_chain fns t'.tableSize nodes
  obtain ⟨hwf', hentries⟩ := wellFormed_of_pushNodes hhead hpos
    (fun i _ => by rw [hlist, Bucket.nodes_list]; exact List.Perm.refl _)
    (fun i _ => ⟨bucketOk_pushNodes hdistinct i, fun _ => hlist i⟩)
    (by rw [hcount, hwf.count, ← hdata.length_eq, List.length_map])
    (by
      rw [htree]
      refine (List.sum_eq_zero fun c hc => ?_).symm
      obtain ⟨i, -, rfl⟩ := List.mem_map.1 hc
      rw [hlist]
      rfl)
  refine ⟨⟨hwf', hentries.trans hdata, hcount, hsettings⟩, fun i htree => ?_⟩
  obtain ⟨head', root, heq, hroot⟩ := htree
  rw [hhead] at heq
  cases heq
  rw [hlist] at hroot
  cases hroot

-- rebuildFromPools

variable {alloc : Allocations α}

/-- The tree nodes are copied, if the pool has an element for each. -/
theorem copies_some {treeNodes : List (Node α)}
    (h : ∀ node ∈ treeNodes, alloc.listCopy node.address ≠ none) :
    ∃ copies, treeNodes.mapM (fun treeNode => (alloc.listCopy treeNode.address).map fun address =>
        (⟨address, treeNode.data⟩ : Node α)) = some copies ∧
      copies.map Node.data = treeNodes.map Node.data := by
  induction treeNodes with
  | nil => exact ⟨[], rfl, rfl⟩
  | cons node treeNodes ih =>
    obtain ⟨copies, hrun, hdata⟩ := ih fun m hm => h m (List.mem_cons_of_mem _ hm)
    obtain ⟨address, haddress⟩ := Option.ne_none_iff_exists'.1 (h node (List.mem_cons_self ..))
    refine ⟨⟨address, node.data⟩ :: copies, ?_, ?_⟩
    · rw [List.mapM_cons, hrun, haddress]
      rfl
    · rw [List.map_cons, List.map_cons, hdata]

theorem copies_none {treeNodes : List (Node α)} {node : Node α} (hnode : node ∈ treeNodes)
    (h : alloc.listCopy node.address = none) :
    treeNodes.mapM (fun treeNode => (alloc.listCopy treeNode.address).map fun address =>
      (⟨address, treeNode.data⟩ : Node α)) = none := by
  induction treeNodes with
  | nil => exact absurd hnode List.not_mem_nil
  | cons first treeNodes ih =>
    rw [List.mapM_cons]
    obtain rfl | hnode := List.mem_cons.1 hnode
    · rw [h]
      rfl
    · rw [ih hnode]
      cases alloc.listCopy first.address <;> rfl

variable [DecidableEq α]

/-- A chain is too long, and `listToTree` gets a tree for it. -/
def Converts (t : J9HashTable α) (alloc : Allocations α) (i length : ℕ) : Prop :=
  t.listToTreeThreshold < length ∧ t.canRehash = true ∧ t.collisionResilient = true ∧
    alloc.tree i = true

instance (t : J9HashTable α) (alloc : Allocations α) (i length : ℕ) :
    Decidable (t.Converts alloc i length) := inferInstanceAs (Decidable (_ ∧ _))

/-- What becomes of a chain in the last loop of `rebuildFromPools`. -/
def built (t : J9HashTable α) (fns : HashFunctions α) (alloc : Allocations α) (i : ℕ)
    (chain : List (Node α)) : Bucket α :=
  if t.Converts alloc i chain.length then .tree (treeOf fns alloc chain) else .list chain

theorem listToTree_eq (t : J9HashTable α) (fns : HashFunctions α) (alloc : Allocations α) (i : ℕ)
    {chain : List (Node α)} (hlong : t.listToTreeThreshold < chain.length) :
    t.listToTree fns alloc i chain =
      if t.Converts alloc i chain.length then
        if alloc.treeCapacity i = true then some (some (treeOf fns alloc chain)) else none
      else some none := by
  unfold listToTree Converts treeOf
  simp only [hlong, true_and]

theorem buildTrees_cons_built (t : J9HashTable α) {l : List ℕ} {head : ℕ → Bucket α} {c : ℕ}
    (hcap : t.Converts alloc i (head i).chain.length → alloc.treeCapacity i = true)
    (hlist : head i = .list (head i).chain) :
    t.buildTrees fns alloc (i :: l) head c =
      t.buildTrees fns alloc l (Function.update head i (t.built fns alloc i (head i).chain))
        (c + if t.Converts alloc i (head i).chain.length then (head i).chain.length else 0) := by
  have hsame : Function.update head i (.list (head i).chain) = head := by
    rw [← hlist, Function.update_eq_self]
  rw [buildTrees]
  by_cases hlong : t.listToTreeThreshold < (head i).chain.length
  · rw [if_pos hlong, listToTree_eq t fns alloc i hlong, built]
    by_cases hconv : t.Converts alloc i (head i).chain.length
    · rw [if_pos hconv, if_pos (hcap hconv), if_pos hconv, if_pos hconv]
    · rw [if_neg hconv, if_neg hconv, if_neg hconv, hsame, Nat.add_zero]
  · have hconv : ¬t.Converts alloc i (head i).chain.length := fun hconv => hlong hconv.1
    rw [if_neg hlong, built, if_neg hconv, if_neg hconv, hsame, Nat.add_zero]

/-- With room for them, trees are built of the chains that are too long. -/
theorem buildTrees_some (t : J9HashTable α) (fns : HashFunctions α) (c : ℕ) {l : List ℕ}
    (hl : l.Nodup) {head : ℕ → Bucket α}
    (hcap : ∀ i ∈ l, t.Converts alloc i (head i).chain.length → alloc.treeCapacity i = true)
    (hlist : ∀ i ∈ l, head i = .list (head i).chain) :
    ∃ head', t.buildTrees fns alloc l head c = some (head', c + (l.map fun i =>
        if t.Converts alloc i (head i).chain.length then (head i).chain.length else 0).sum) ∧
      ∀ i, head' i = if i ∈ l then t.built fns alloc i (head i).chain else head i := by
  induction l generalizing head c with
  | nil => exact ⟨head, rfl, fun i => (if_neg List.not_mem_nil).symm⟩
  | cons i l ih =>
    obtain ⟨hnot, hl⟩ := List.nodup_cons.1 hl
    have hother : ∀ j ∈ l, Function.update head i (t.built fns alloc i (head i).chain) j = head j :=
      fun j hj => Function.update_of_ne (ne_of_mem_of_not_mem hj hnot) ..
    have hcap' : ∀ j ∈ l, t.Converts alloc j
        (Function.update head i (t.built fns alloc i (head i).chain) j).chain.length →
          alloc.treeCapacity j = true := by
      intro j hj
      rw [hother j hj]
      exact hcap j (List.mem_cons_of_mem _ hj)
    obtain ⟨head', hrun, hhead'⟩ := ih _ hl hcap' fun j hj => by
      rw [hother j hj]
      exact hlist j (List.mem_cons_of_mem _ hj)
    refine ⟨head', ?_, fun j => ?_⟩
    · rw [buildTrees_cons_built t (hcap i (List.mem_cons_self ..)) (hlist i (List.mem_cons_self ..)),
        hrun, List.map_cons, List.sum_cons, Nat.add_assoc]
      congr 4
      exact congrArg List.sum (List.map_congr_left fun j hj => by rw [hother j hj])
    · rw [hhead']
      by_cases hj : j ∈ l
      · rw [if_pos hj, if_pos (List.mem_cons_of_mem _ hj), hother j hj]
      · rw [if_neg hj]
        by_cases hji : j = i
        · rw [hji, Function.update_self, if_pos (List.mem_cons_self ..)]
        · rw [Function.update_of_ne hji, if_neg (by simp [hji, hj])]

/-- Without room for one of them there is no result. -/
theorem buildTrees_none (t : J9HashTable α) {l : List ℕ} (hl : l.Nodup) {head : ℕ → Bucket α}
    {c : ℕ} (hlist : ∀ i ∈ l, head i = .list (head i).chain)
    (hfull : ∃ i ∈ l, t.Converts alloc i (head i).chain.length ∧ alloc.treeCapacity i = false) :
    t.buildTrees fns alloc l head c = none := by
  induction l generalizing head c with
  | nil =>
    obtain ⟨i, hi, -⟩ := hfull
    exact absurd hi List.not_mem_nil
  | cons i l ih =>
    obtain ⟨hnot, hl⟩ := List.nodup_cons.1 hl
    by_cases hcap : t.Converts alloc i (head i).chain.length → alloc.treeCapacity i = true
    · rw [buildTrees_cons_built t hcap (hlist i (List.mem_cons_self ..))]
      have hother : ∀ j ∈ l,
          Function.update head i (t.built fns alloc i (head i).chain) j = head j :=
        fun j hj => Function.update_of_ne (ne_of_mem_of_not_mem hj hnot) ..
      refine ih hl (fun j hj => ?_) ?_
      · rw [hother j hj]
        exact hlist j (List.mem_cons_of_mem _ hj)
      · obtain ⟨j, hj, hconv, hnone⟩ := hfull
        obtain rfl | hj := List.mem_cons.1 hj
        · rw [hcap hconv] at hnone
          cases hnone
        · exact ⟨j, hj, by rwa [hother j hj], hnone⟩
    · obtain ⟨hconv, hnone⟩ := Classical.not_imp.1 hcap
      rw [buildTrees, if_pos hconv.1, listToTree_eq t fns alloc i hconv.1, if_pos hconv, if_neg hnone]

section Rebuild

variable [LinearOrder κ] {head : ℕ → Bucket α}

theorem built_spec (t : J9HashTable α) (alloc : Allocations α)
    (hlaw : Lawful fns key t.collisionResilient) {chain : List (Node α)}
    (hok : BucketOk fns key n i (.list chain)) :
    BucketOk fns key n i (t.built fns alloc i chain) ∧
      ((t.built fns alloc i chain).nodes.map Node.data).Perm (chain.map Node.data) ∧
      (t.built fns alloc i chain).treeNodes.length =
        if t.Converts alloc i chain.length then chain.length else 0 := by
  unfold built
  split
  · next hconv =>
    have hd : KeysDistinct key chain := by simpa using hok.distinct
    rw [hconv.2.2.1] at hlaw
    obtain ⟨-, -, hperm⟩ := treeOf_spec hlaw alloc hd
    refine ⟨bucketOk_treeOf hlaw alloc hd (by simpa using hok.home), ?_, ?_⟩
    · rw [Bucket.nodes_tree]
      refine (hperm.map Node.data).trans (List.Perm.of_eq ?_)
      rw [List.map_map]
      rfl
    · rw [Bucket.treeNodes, hperm.length_eq, List.length_map]
  · exact ⟨hok, by rw [Bucket.nodes_list], rfl⟩

/-- New buckets, the chains that are too long made into trees, keep the entries. -/
theorem kept_of_built (hlaw : Lawful fns key t.collisionResilient) (hwf : t.WellFormed fns key)
    (hresilient : t.collisionResilient = true) {nodes : List (Node α)}
    (hdata : (nodes.map Node.data).Perm t.entries) (hhead : t'.nodes = .buckets head)
    (hpos : 0 < t'.tableSize)
    (hbuilt : ∀ i < t'.tableSize,
      head i = t.built fns alloc i (fns.pushNodes t'.tableSize nodes i).chain)
    (htree : t'.numberOfTreeNodes = ((List.range t'.tableSize).map fun i =>
      if t.Converts alloc i (t.crowd fns t'.tableSize i) then t.crowd fns t'.tableSize i
      else 0).sum)
    (hcount : t'.numberOfNodes = t.numberOfNodes) (hsettings : t'.settings = t.settings) :
    Kept fns key t t' ∧ ∀ i < t'.tableSize,
      (t'.bucketIsTree i ↔ t.Converts alloc i (t.crowd fns t'.tableSize i)) := by
  have hlength : ∀ i, (fns.pushNodes t'.tableSize nodes i).chain.length =
      t.crowd fns t'.tableSize i := length_pushNodes hdata t'.tableSize
  have hdistinct : KeysDistinct key nodes := KeysDistinct.map_iff.2
    ((hdata.symm.pairwise_iff fun hab => hab.symm).1 (hwf.entries_distinct hlaw))
  have hspec := fun i => built_spec t alloc hlaw 
    (pushNodes_eq_chain fns t'.tableSize nodes i ▸ bucketOk_pushNodes hdistinct i)
  have hok : ∀ i < t'.tableSize, BucketOk fns key t'.tableSize i (head i) ∧
      (t'.collisionResilient = false → head i = .list (head i).chain) := by
    intro i hi
    rw [hbuilt i hi]
    refine ⟨(hspec i).1, fun hplain => ?_⟩
    have hsame : t'.collisionResilient = t.collisionResilient := congrArg (fun s => s.2.2.1) hsettings
    rw [hsame, hresilient] at hplain
    cases hplain
  obtain ⟨hwf', hentries⟩ := wellFormed_of_pushNodes hhead hpos
    (fun i hi => by rw [hbuilt i hi]; exact (hspec i).2.1) hok
    (by rw [hcount, hwf.count, ← hdata.length_eq, List.length_map]) (by
      rw [htree]
      refine congrArg List.sum (List.map_congr_left fun i hi => ?_)
      rw [hbuilt i (List.mem_range.1 hi), (hspec i).2.2, hlength])
  refine ⟨⟨hwf', hentries.trans hdata, hcount, hsettings⟩, fun i hi => ?_⟩
  rw [← hlength i, bucketIsTree, hhead]
  constructor
  · rintro ⟨head', root, heq, hroot⟩
    cases heq
    rw [hbuilt i hi, built] at hroot
    by_contra hnot
    rw [if_neg hnot] at hroot
    cases hroot
  · intro hconv
    exact ⟨head, _, rfl, by rw [hbuilt i hi, built, if_pos hconv]⟩

/-- `rebuildFromPools` needs an element for each tree node, and room for each tree. -/
theorem rebuildFromPools_some (hlaw : Lawful fns key t.collisionResilient)
    (hwf : t.WellFormed fns key) (hbuckets : t.nodes = .buckets head)
    (hresilient : t.collisionResilient = true)
    (hlist : alloc.listWalk.Perm (t.listNodes head))
    (htree : alloc.treeWalk.Perm (t.nodes.treeNodes t.tableSize)) (hn : 0 < n)
    (hcopies : ∀ node ∈ t.nodes.treeNodes t.tableSize, alloc.listCopy node.address ≠ none)
    (hcapacity : ∀ i < n, t.Converts alloc i (t.crowd fns n i) → alloc.treeCapacity i = true) :
    ∃ t', t.rebuildFromPools fns n alloc = some t' ∧ Kept fns key t t' ∧ t'.tableSize = n ∧
      ∀ i < n, t'.bucketIsTree i ↔ t.Converts alloc i (t.crowd fns n i) := by
  obtain ⟨copies, hrun, hdata⟩ := copies_some fun node hnode => hcopies node (htree.mem_iff.1 hnode)
  have hnodes : ((alloc.listWalk ++ copies).map Node.data).Perm t.entries := by
    rw [List.map_append, hdata, ← List.map_append]
    exact ((hlist.append htree).map Node.data).trans (entries_perm_nodes hbuckets)
  have hlength : ∀ i, (fns.pushNodes n (alloc.listWalk ++ copies) i).chain.length =
      t.crowd fns n i := length_pushNodes hnodes n
  obtain ⟨head', hbuild, hhead'⟩ := buildTrees_some t fns 0 List.nodup_range
    (fun i hi => by rw [hlength]; exact hcapacity i (List.mem_range.1 hi))
    fun i _ => pushNodes_eq_chain fns n (alloc.listWalk ++ copies) i
  simp only [hlength, Nat.zero_add] at hbuild
  obtain ⟨t', ht'⟩ : ∃ t', t' = { t with
      tableSize := n
      numberOfTreeNodes := ((List.range n).map fun i =>
        if t.Converts alloc i (t.crowd fns n i) then t.crowd fns n i else 0).sum
      nodes := .buckets head' } := ⟨_, rfl⟩
  have hsize : t'.tableSize = n := by rw [ht']
  subst hsize
  obtain ⟨hkept, hisTree⟩ : Kept fns key t t' ∧ ∀ i < t'.tableSize,
      (t'.bucketIsTree i ↔ t.Converts alloc i (t.crowd fns t'.tableSize i)) :=
    kept_of_built hlaw hwf hresilient hnodes (by rw [ht']) hn
      (fun i hi => by rw [hhead', if_pos (List.mem_range.2 hi)]) (by rw [ht']) (by rw [ht'])
      (by rw [ht']; rfl)
  refine ⟨t', ?_, hkept, rfl, hisTree⟩
  rw [rebuildFromPools, hrun, ht']
  simp only [hbuild, Option.map_some]

/-- Without them it has no result. -/
theorem rebuildFromPools_none (hbuckets : t.nodes = .buckets head)
    (hlist : alloc.listWalk.Perm (t.listNodes head))
    (htree : alloc.treeWalk.Perm (t.nodes.treeNodes t.tableSize))
    (hfull : (∃ node ∈ t.nodes.treeNodes t.tableSize, alloc.listCopy node.address = none) ∨
      ∃ i < n, t.Converts alloc i (t.crowd fns n i) ∧ alloc.treeCapacity i = false) :
    t.rebuildFromPools fns n alloc = none := by
  by_cases hcopies : ∀ node ∈ t.nodes.treeNodes t.tableSize, alloc.listCopy node.address ≠ none
  · obtain ⟨i, hi, hconv, hnone⟩ := hfull.resolve_left fun ⟨node, hnode, h⟩ => hcopies node hnode h
    obtain ⟨copies, hrun, hdata⟩ :=
      copies_some fun node hnode => hcopies node (htree.mem_iff.1 hnode)
    have hnodes : ((alloc.listWalk ++ copies).map Node.data).Perm t.entries := by
      rw [List.map_append, hdata, ← List.map_append]
      exact ((hlist.append htree).map Node.data).trans (entries_perm_nodes hbuckets)
    rw [rebuildFromPools, hrun]
    dsimp only
    rw [buildTrees_none t List.nodup_range
      (fun i _ => pushNodes_eq_chain fns n (alloc.listWalk ++ copies) i)
      ⟨i, List.mem_range.2 hi, by rwa [length_pushNodes hnodes], hnone⟩]
    rfl
  · simp only [not_forall, Classical.not_not] at hcopies
    obtain ⟨node, hnode, hnone⟩ := hcopies
    rw [rebuildFromPools, copies_none (htree.mem_iff.2 hnode) hnone]

end Rebuild

end J9HashTable

end OMR.Util.Hash
