import OMR.Util.HashTableRehash

/-!
# Adding an entry

What the last part of `hashTableAdd` does to a well-formed table: an entry whose key is there
is found, unless its bucket is a tree and there is no element for the node that is compared;
another one is added, or the table keeps its entries.
-/

namespace OMR.Util.Hash

open OMR.Lib OMR.Util.AVL

variable {α κ : Type*} {fns : HashFunctions α} {key : α → κ} {i n : ℕ} {entry x : α}

namespace J9HashTable

variable [LinearOrder κ] {t t' : J9HashTable α} {resilient : Bool}

/-! ### Where an entry is found -/

theorem findNodeSpaceOpt_present (hlaw : Lawful fns key resilient) (hwf : t.WellFormed fns key)
    {slot : ℕ → Option α} (hslots : t.nodes = .slots slot) {p : ℕ} (hp : p < t.tableSize)
    (hx : slot p = some x) (hkey : key x = key entry) :
    fns.hashTableFindNodeSpaceOpt t.tableSize slot entry = some p := by
  obtain ⟨hprobed, hdistinct, -⟩ := wellFormed_slots hwf hslots
  rw [HashFunctions.hashTableFindNodeSpaceOpt, ← hlaw.home_eq hkey]
  exact hprobed.walk_present hdistinct hp hx fun y => by rw [hlaw.equal_iff, hkey]

theorem findNodeSpaceOpt_absent (hlaw : Lawful fns key resilient) (hwf : t.WellFormed fns key)
    {slot : ℕ → Option α} (hslots : t.nodes = .slots slot)
    (hnew : ∀ x ∈ t.entries, key x ≠ key entry) :
    ∃ p < t.tableSize, fns.hashTableFindNodeSpaceOpt t.tableSize slot entry = some p ∧
      slot p = none ∧ ∀ b < t.tableSize,
        LinearProbing.Before (fns.home t.tableSize entry) p b → slot b ≠ none := by
  obtain ⟨-, -, hroom, -⟩ := wellFormed_slots hwf hslots
  have hcount := hwf.count
  rw [entries_slots hslots] at hcount hnew
  obtain ⟨e, he, hempty⟩ := LinearProbing.exists_empty
    (show (LinearProbing.stored t.tableSize slot).length < t.tableSize by omega)
  refine LinearProbing.Probed.walk_absent (Nat.mod_lt _ hwf.size_pos) he hempty ?_
  intro p hp y hy
  have hne := hnew y (LinearProbing.mem_stored.2 ⟨p, hp, hy⟩)
  simpa using mt (hlaw.equal_iff y entry).1 hne

theorem findNodeInList_present (hlaw : Lawful fns key resilient) {chain : List (Node α)}
    (hd : KeysDistinct key chain) {node : Node α} (hnode : node ∈ chain)
    (hkey : key node.data = key entry) :
    fns.hashTableFindNodeInList chain entry = some node := by
  unfold HashFunctions.hashTableFindNodeInList
  cases hfind : chain.find? fun node => fns.hashEqualFn node.data entry with
  | none =>
    have hnone := List.find?_eq_none.1 hfind node hnode
    exact absurd ((hlaw.equal_iff _ _).2 hkey) hnone
  | some other =>
    have hsame : key other.data = key node.data :=
      ((hlaw.equal_iff _ _).1 (by simpa using List.find?_some hfind)).trans hkey.symm
    rw [hd.eq_of_key (List.mem_of_find?_eq_some hfind) hnode hsame]

theorem findNodeInList_absent (hlaw : Lawful fns key resilient) {chain : List (Node α)}
    (hnew : ∀ node ∈ chain, key node.data ≠ key entry) :
    fns.hashTableFindNodeInList chain entry = none := by
  refine List.find?_eq_none.2 fun node hnode heq => ?_
  exact hnew node hnode ((hlaw.equal_iff _ _).1 (by simpa using heq))

/-- An entry of a bucket table is in the bucket of its key. -/
theorem mem_bucket (hlaw : Lawful fns key resilient) (hwf : t.WellFormed fns key)
    {head : ℕ → Bucket α} (hbuckets : t.nodes = .buckets head) (hx : x ∈ t.entries)
    (hkey : key x = key entry) :
    ∃ node ∈ (head (fns.home t.tableSize entry)).nodes, node.data = x := by
  obtain ⟨i, hi, node, hnode, rfl⟩ := (mem_entries_buckets hbuckets).1 hx
  have hhome := (wellFormed_buckets hwf hbuckets i hi).1.home node hnode
  rw [hlaw.home_eq hkey] at hhome
  exact ⟨node, hhome ▸ hnode, rfl⟩

omit [LinearOrder κ] in
theorem not_mem_bucket {head : ℕ → Bucket α} (hbuckets : t.nodes = .buckets head)
    (hi : i < t.tableSize) (hnew : ∀ x ∈ t.entries, key x ≠ key entry) :
    ∀ node ∈ (head i).nodes, key node.data ≠ key entry :=
  fun node hnode => hnew _ ((mem_entries_buckets hbuckets).2 ⟨i, hi, node, hnode, rfl⟩)

/-- Only collision-resilient tables have trees. -/
theorem resilient_of_tree (hwf : t.WellFormed fns key) {head : ℕ → Bucket α}
    (hbuckets : t.nodes = .buckets head) (hi : i < t.tableSize) {root : AVL.Tree (Node α)}
    (hroot : head i = .tree root) : t.collisionResilient = true := by
  by_contra hplain
  have hlist := (wellFormed_buckets hwf hbuckets i hi).2 (by simpa using hplain)
  rw [hroot] at hlist
  cases hlist

/-! ### One bucket changes -/

/-- Another bucket, with `xs` more and `ys` less than the old one. -/
theorem wellFormed_update (hwf : t.WellFormed fns key) {head : ℕ → Bucket α}
    (hbuckets : t.nodes = .buckets head) (hi : i < t.tableSize) {b : Bucket α} {xs ys : List α}
    (hok : BucketOk fns key t.tableSize i b)
    (hplain : t.collisionResilient = false → b = .list b.chain)
    (hdata : (ys ++ b.nodes.map Node.data).Perm (xs ++ (head i).nodes.map Node.data))
    (hnodes : t'.nodes = .buckets (Function.update head i b)) (hsize : t'.tableSize = t.tableSize)
    (hsettings : t'.settings = t.settings)
    (hcount : t'.numberOfNodes + ys.length = t.numberOfNodes + xs.length)
    (htree : t'.numberOfTreeNodes + (head i).treeNodes.length =
      t.numberOfTreeNodes + b.treeNodes.length) :
    t'.WellFormed fns key ∧ (ys ++ t'.entries).Perm (xs ++ t.entries) := by
  have hentries : (ys ++ t'.entries).Perm (xs ++ t.entries) := by
    rw [entries_buckets hnodes, entries_buckets hbuckets, hsize]
    exact flatMap_perm_of_update (fun b : Bucket α => b.nodes.map Node.data) hi hdata
  refine ⟨⟨by rw [hsize]; exact hwf.size_pos, ?_, ?_, ?_⟩, hentries⟩
  · have hlength := hentries.length_eq
    rw [List.length_append, List.length_append, ← hwf.count] at hlength
    omega
  · have hswap : ((head i).treeNodes ++ b.treeNodes).Perm (b.treeNodes ++ (head i).treeNodes) :=
      List.perm_append_comm
    have hlength := (flatMap_perm_of_update Bucket.treeNodes hi hswap).length_eq
    rw [List.length_append, List.length_append, ← treeNodes_buckets hbuckets, ← hwf.treeCount]
      at hlength
    rw [treeNodes_buckets hnodes, hsize]
    omega
  · rw [ArrayOk, hnodes]
    intro j hj
    rw [hsize] at hj ⊢
    have hsame : t'.collisionResilient = t.collisionResilient :=
      congrArg (fun s => s.2.2.1) hsettings
    rw [hsame]
    by_cases hji : j = i
    · subst hji
      rw [Function.update_self]
      exact ⟨hok, hplain⟩
    · rw [Function.update_of_ne hji]
      exact wellFormed_buckets hwf hbuckets j hj

/-- The entry is in the table besides the others, and `p` leads to it. -/
structure Added (fns : HashFunctions α) (key : α → κ) (entry : α) (t t' : J9HashTable α)
    (p : Pointer) : Prop where
  wf : t'.WellFormed fns key
  entries : t'.entries.Perm (entry :: t.entries)
  points : t'.PointsTo p entry
  count : t'.numberOfNodes = t.numberOfNodes + 1
  settings : t'.settings = t.settings

/-! ### Slots -/

theorem hashTableAddNodeSpaceOpt_present (hlaw : Lawful fns key resilient)
    (hwf : t.WellFormed fns key) {slot : ℕ → Option α} (hslots : t.nodes = .slots slot)
    (hx : x ∈ t.entries) (hkey : key x = key entry) :
    ∃ p, t.hashTableAddNodeSpaceOpt fns slot entry = some (t, some p) ∧ t.PointsTo p x := by
  rw [entries_slots hslots] at hx
  obtain ⟨p, hp, hslot⟩ := LinearProbing.mem_stored.1 hx
  refine ⟨.slot p, ?_, ?_⟩
  · rw [hashTableAddNodeSpaceOpt, findNodeSpaceOpt_present hlaw hwf hslots hp hslot hkey]
    simp [hslot]
  · rw [PointsTo, hslots]
    exact ⟨hp, hslot⟩

theorem hashTableAddNodeSpaceOpt_absent (hlaw : Lawful fns key resilient)
    (hwf : t.WellFormed fns key) {slot : ℕ → Option α} (hslots : t.nodes = .slots slot)
    (hroom : t.numberOfNodes + 1 < t.tableSize) (hnew : ∀ x ∈ t.entries, key x ≠ key entry) :
    ∃ t' p, t.hashTableAddNodeSpaceOpt fns slot entry = some (t', some p) ∧
      Added fns key entry t t' p := by
  obtain ⟨p, hp, hfind, hempty, hpass⟩ := findNodeSpaceOpt_absent hlaw hwf hslots hnew
  obtain ⟨hprobed, hdistinct, -, hplain⟩ := wellFormed_slots hwf hslots
  have hcount := hwf.count
  rw [entries_slots hslots] at hnew hcount
  have hstored := LinearProbing.stored_update_some hp hempty entry
  refine ⟨{ t with
      nodes := .slots (Function.update slot p (some entry))
      numberOfNodes := t.numberOfNodes + 1 }, .slot p, ?_, ⟨⟨hwf.size_pos, ?_, ?_, ?_⟩, ?_, ?_, rfl, rfl⟩⟩
  · rw [hashTableAddNodeSpaceOpt, hfind, Option.map_some, if_pos hempty]
  · exact (congrArg (· + 1) hcount).trans hstored.length_eq.symm
  · exact (treeCount_slots hwf hslots).trans rfl
  · exact ⟨hprobed.insert (Nat.mod_lt _ hwf.size_pos) hpass, hdistinct.insert fun q hq y hy =>
      hnew y (LinearProbing.mem_stored.2 ⟨q, hq, hy⟩), hroom, hplain⟩
  · rw [entries_slots hslots]
    exact hstored
  · exact ⟨hp, Function.update_self ..⟩

/-! ### Trees -/

section Tree

variable [DecidableEq α] {alloc : Allocations α} {head : ℕ → Bucket α} {root : AVL.Tree (Node α)}

theorem hashTableAddNodeInTree_none (t : J9HashTable α) (head : ℕ → Bucket α) (i : ℕ)
    (root : AVL.Tree (Node α)) (entry : α) (hnone : alloc.treeNode = none) :
    t.hashTableAddNodeInTree fns head i root entry alloc = (t, none) := by
  rw [hashTableAddNodeInTree, hnone]

/-- The comparison node of an entry that is there finds the node of the entry. -/
theorem hashTableAddNodeInTree_present (hlaw : Lawful fns key true) (hwf : t.WellFormed fns key)
    (hbuckets : t.nodes = .buckets head) (hi : i < t.tableSize) (hroot : head i = .tree root)
    {address : ℕ} (haddress : alloc.treeNode = some address)
    (hfresh : ∀ node ∈ root, node.address ≠ address) {node : Node α} (hnode : node ∈ root)
    (hkey : key node.data = key entry) :
    t.hashTableAddNodeInTree fns head i root entry alloc =
        (t, some (.treeNode node.address)) ∧
      t.PointsTo (.treeNode node.address) node.data := by
  obtain ⟨ho, hb⟩ := (wellFormed_buckets hwf hbuckets i hi).1.tree root hroot
  have hinsert := avlInsert_of_mem hlaw.compareNodes hb ho (n := ⟨address, entry⟩) hnode hkey
  have hother : node ≠ ⟨address, entry⟩ := by
    rintro rfl
    exact hfresh _ hnode rfl
  refine ⟨?_, ?_⟩
  · rw [hashTableAddNodeInTree, haddress]
    simp only [hinsert]
    rw [if_pos hother, ← hroot, Function.update_eq_self, ← hbuckets]
  · rw [PointsTo, hbuckets]
    exact ⟨i, hi, by rw [hroot]; exact hnode⟩

theorem hashTableAddNodeInTree_absent (hlaw : Lawful fns key true) (hwf : t.WellFormed fns key)
    (hbuckets : t.nodes = .buckets head) (hresilient : t.collisionResilient = true)
    (hroot : head (fns.home t.tableSize entry) = .tree root)
    {address : ℕ} (haddress : alloc.treeNode = some address)
    (hnew : ∀ x ∈ t.entries, key x ≠ key entry) :
    ∃ t' p, t.hashTableAddNodeInTree fns head (fns.home t.tableSize entry) root entry alloc =
      (t', some p) ∧ Added fns key entry t t' p := by
  have hi : fns.home t.tableSize entry < t.tableSize := Nat.mod_lt _ hwf.size_pos
  obtain ⟨hok, -⟩ := wellFormed_buckets hwf hbuckets _ hi
  obtain ⟨ho, hb⟩ := hok.tree root hroot
  have hnew' := not_mem_bucket hbuckets hi hnew
  rw [hroot, Bucket.nodes_tree] at hnew'
  obtain ⟨hfind, ho', hb', hperm⟩ :=
    avlInsert_perm hlaw hb ho ⟨address, entry⟩ fun m hm => hnew' m hm
  obtain ⟨root', hroot'⟩ : ∃ root', root' = (avlInsert fns.compareNodes root ⟨address, entry⟩).1 :=
    ⟨_, rfl⟩
  rw [← hroot'] at ho' hb' hperm
  obtain ⟨t', ht'⟩ : ∃ t', t' = { t with
      nodes := .buckets (Function.update head (fns.home t.tableSize entry) (.tree root'))
      numberOfNodes := t.numberOfNodes + 1
      numberOfTreeNodes := t.numberOfTreeNodes + 1 } := ⟨_, rfl⟩
  have hok' : BucketOk fns key t.tableSize (fns.home t.tableSize entry) (.tree root') := by
    refine ⟨fun node hnode => ?_, ?_, fun r hr => by cases hr; exact ⟨ho', hb'⟩⟩
    · rw [Bucket.nodes_tree] at hnode
      obtain rfl | hnode := List.mem_cons.1 (hperm.mem_iff.1 hnode)
      · rfl
      · exact hok.home node (by rwa [hroot, Bucket.nodes_tree])
    · rw [Bucket.nodes_tree]
      refine KeysDistinct.perm (List.pairwise_cons.2 ⟨fun m hm => (hnew' m hm).symm, ?_⟩) hperm.symm
      have hd := hok.distinct
      rwa [hroot, Bucket.nodes_tree] at hd
  obtain ⟨hwf', hentries⟩ :
      t'.WellFormed fns key ∧ ([] ++ t'.entries).Perm ([entry] ++ t.entries) := by
    refine wellFormed_update hwf hbuckets hi hok' (fun h => by rw [hresilient] at h; cases h) ?_
      (by rw [ht']) (by rw [ht']) (by rw [ht']; rfl) (by rw [ht']; rfl) ?_
    · rw [hroot, Bucket.nodes_tree, Bucket.nodes_tree]
      exact hperm.map Node.data
    · rw [ht', hroot, Bucket.treeNodes, Bucket.treeNodes, hperm.length_eq, List.length_cons]
      dsimp only
      omega
  refine ⟨t', .treeNode address, ?_, hwf', hentries, ?_, by rw [ht'], by rw [ht']; rfl⟩
  · rw [hashTableAddNodeInTree, haddress]
    simp only [hfind, ← hroot', ne_eq, not_true_eq_false, if_false, ht']
  · rw [PointsTo, ht']
    refine ⟨fns.home t.tableSize entry, hi, ?_⟩
    rw [Function.update_self]
    exact hperm.mem_iff.2 (List.mem_cons_self ..)

/-! ### Lists -/

variable {chain : List (Node α)}

theorem hashTableAddNodeInList_present (hlaw : Lawful fns key resilient)
    (hwf : t.WellFormed fns key) (hbuckets : t.nodes = .buckets head) (hi : i < t.tableSize)
    (hchain : head i = .list chain) {node : Node α} (hnode : node ∈ chain)
    (hkey : key node.data = key entry) (alloc : Allocations α) :
    t.hashTableAddNodeInList fns head i chain entry alloc =
        some (t, some (.listNode node.address)) ∧
      t.PointsTo (.listNode node.address) node.data := by
  have hd := (wellFormed_buckets hwf hbuckets i hi).1.distinct
  rw [hchain, Bucket.nodes_list] at hd
  refine ⟨?_, ?_⟩
  · rw [hashTableAddNodeInList, findNodeInList_present hlaw hd hnode hkey]
  · rw [PointsTo, hbuckets]
    exact ⟨i, hi, by rw [hchain]; exact hnode⟩

omit [DecidableEq α] in
/-- A node at the end of the chain. -/
theorem added_listNode (hwf : t.WellFormed fns key) (hbuckets : t.nodes = .buckets head)
    (hchain : head (fns.home t.tableSize entry) = .list chain)
    (hnew : ∀ x ∈ t.entries, key x ≠ key entry) (address : ℕ) :
    Added fns key entry t { t with
      nodes := .buckets (Function.update head (fns.home t.tableSize entry)
        (.list (chain ++ [(⟨address, entry⟩ : Node α)])))
      numberOfNodes := t.numberOfNodes + 1 } (.listNode address) := by
  have hi : fns.home t.tableSize entry < t.tableSize := Nat.mod_lt _ hwf.size_pos
  obtain ⟨hok, -⟩ := wellFormed_buckets hwf hbuckets _ hi
  have hnew' := not_mem_bucket hbuckets hi hnew
  have hhome := hok.home
  have hd := hok.distinct
  rw [hchain, Bucket.nodes_list] at hnew' hhome hd
  have hok' : BucketOk fns key t.tableSize (fns.home t.tableSize entry)
      (.list (chain ++ [⟨address, entry⟩])) := by
    refine bucketOk_list (List.pairwise_append.2 ⟨hd, List.pairwise_singleton .., ?_⟩) ?_
    · intro a ha b hb
      rw [List.mem_singleton.1 hb]
      exact hnew' a ha
    · intro node hnode
      obtain hnode | hnode := List.mem_append.1 hnode
      · exact hhome node hnode
      · rw [List.mem_singleton.1 hnode]
  obtain ⟨t', ht'⟩ : ∃ t', t' = { t with
      nodes := .buckets (Function.update head (fns.home t.tableSize entry)
        (.list (chain ++ [(⟨address, entry⟩ : Node α)])))
      numberOfNodes := t.numberOfNodes + 1 } := ⟨_, rfl⟩
  obtain ⟨hwf', hentries⟩ :
      t'.WellFormed fns key ∧ ([] ++ t'.entries).Perm ([entry] ++ t.entries) := by
    refine wellFormed_update hwf hbuckets hi hok' (fun _ => rfl) ?_ (by rw [ht']) (by rw [ht'])
      (by rw [ht']; rfl) (by rw [ht']; rfl) (by rw [ht', hchain]; rfl)
    rw [hchain, Bucket.nodes_list, Bucket.nodes_list, List.map_append, List.nil_append]
    exact List.perm_append_comm
  rw [← ht']
  refine ⟨hwf', hentries, ?_, by rw [ht'], by rw [ht']; rfl⟩
  rw [PointsTo, ht']
  refine ⟨fns.home t.tableSize entry, hi, ?_⟩
  rw [Function.update_self]
  exact List.mem_append_right _ (List.mem_singleton_self _)

/-- A chain becomes a tree of copies of its nodes. -/
theorem kept_treeOf (hlaw : Lawful fns key true) (hwf : t.WellFormed fns key)
    (hbuckets : t.nodes = .buckets head) (hi : i < t.tableSize)
    (hresilient : t.collisionResilient = true) (hchain : head i = .list chain)
    (alloc : Allocations α) :
    Kept fns key t { t with
      nodes := .buckets (Function.update head i (.tree (treeOf fns alloc chain)))
      numberOfTreeNodes := t.numberOfTreeNodes + chain.length } := by
  obtain ⟨hok, -⟩ := wellFormed_buckets hwf hbuckets i hi
  have hhome := hok.home
  have hd := hok.distinct
  rw [hchain, Bucket.nodes_list] at hhome hd
  obtain ⟨-, -, hperm⟩ := treeOf_spec hlaw alloc hd
  obtain ⟨t', ht'⟩ : ∃ t', t' = { t with
      nodes := .buckets (Function.update head i (.tree (treeOf fns alloc chain)))
      numberOfTreeNodes := t.numberOfTreeNodes + chain.length } := ⟨_, rfl⟩
  obtain ⟨hwf', hentries⟩ : t'.WellFormed fns key ∧ ([] ++ t'.entries).Perm ([] ++ t.entries) := by
    refine wellFormed_update hwf hbuckets hi (bucketOk_treeOf hlaw alloc hd hhome)
      (fun h => by rw [hresilient] at h; cases h) ?_ (by rw [ht']) (by rw [ht'])
      (by rw [ht']; rfl) (by rw [ht']) ?_
    · rw [hchain, Bucket.nodes_tree, Bucket.nodes_list]
      refine (hperm.map Node.data).trans (List.Perm.of_eq ?_)
      rw [List.map_map]
      rfl
    · rw [ht', hchain, Bucket.treeNodes, Bucket.treeNodes, hperm.length_eq, List.length_map]
      rfl
  rw [← ht']
  exact ⟨hwf', hentries, by rw [ht'], by rw [ht']; rfl⟩

-- addNode

/-- The element for a tree node is not one of those in use. -/
def Fresh (t : J9HashTable α) (alloc : Allocations α) : Prop :=
  ∀ address, alloc.treeNode = some address →
    ∀ node ∈ t.nodes.treeNodes t.tableSize, node.address ≠ address

/-- A tree bucket takes an element for the new node even if its key is there. -/
theorem addNode_none (htree : t.bucketIsTree (fns.home t.tableSize entry))
    (hnone : alloc.treeNode = none) : t.addNode fns entry alloc = some (t, none) := by
  obtain ⟨head, root, hbuckets, hroot⟩ := htree
  simp only [addNode, hbuckets, hroot, hashTableAddNodeInTree_none _ _ _ _ _ hnone]

/-- An entry whose key is there is found. -/
theorem addNode_present (hlaw : Lawful fns key t.collisionResilient) (hwf : t.WellFormed fns key)
    (hfresh : t.Fresh alloc) (hx : x ∈ t.entries) (hkey : key x = key entry)
    (htree : t.bucketIsTree (fns.home t.tableSize entry) → alloc.treeNode ≠ none) :
    ∃ p, t.addNode fns entry alloc = some (t, some p) ∧ t.PointsTo p x := by
  cases hnodes : t.nodes with
  | slots slot =>
    obtain ⟨p, hadd, hpoints⟩ := hashTableAddNodeSpaceOpt_present hlaw hwf hnodes hx hkey
    exact ⟨p, by simp only [addNode, hnodes, hadd], hpoints⟩
  | buckets head =>
    have hi : fns.home t.tableSize entry < t.tableSize := Nat.mod_lt _ hwf.size_pos
    obtain ⟨node, hnode, rfl⟩ := mem_bucket hlaw hwf hnodes hx hkey
    cases hbucket : head (fns.home t.tableSize entry) with
    | list chain =>
      rw [hbucket, Bucket.nodes_list] at hnode
      obtain ⟨hadd, hpoints⟩ :=
        hashTableAddNodeInList_present hlaw hwf hnodes hi hbucket hnode hkey alloc
      exact ⟨_, by simp only [addNode, hnodes, hbucket, hadd], hpoints⟩
    | tree root =>
      rw [hbucket, Bucket.nodes_tree] at hnode
      obtain ⟨address, haddress⟩ :=
        Option.ne_none_iff_exists'.1 (htree ⟨head, root, hnodes, hbucket⟩)
      rw [resilient_of_tree hwf hnodes hi hbucket] at hlaw
      have hother : ∀ m ∈ root, m.address ≠ address := by
        intro m hm
        refine hfresh address haddress m ?_
        rw [treeNodes_buckets hnodes]
        exact List.mem_flatMap.2 ⟨_, List.mem_range.2 hi, by rw [hbucket]; exact hm⟩
      obtain ⟨hadd, hpoints⟩ := hashTableAddNodeInTree_present hlaw hwf hnodes hi hbucket haddress
        hother hnode hkey
      exact ⟨_, by simp only [addNode, hnodes, hbucket, hadd], hpoints⟩

/-- How adding a new entry ends: it is added, or there is no element for its node, or a tree does
not get its puddles. -/
inductive AddOutcome (fns : HashFunctions α) (key : α → κ) (entry : α) (alloc : Allocations α)
    (t : J9HashTable α) : Option (J9HashTable α × Option Pointer) → Prop where
  | crash (hresilient : t.collisionResilient = true) (i : ℕ) (hnone : alloc.treeCapacity i = false) :
    AddOutcome fns key entry alloc t none
  | failed (hnone : alloc.listNode = none ∨ alloc.treeNode = none)
    (t' : J9HashTable α) (hkept : Kept fns key t t') :
    AddOutcome fns key entry alloc t (some (t', none))
  | added (t' : J9HashTable α) (p : Pointer) (hadded : Added fns key entry t t' p) :
    AddOutcome fns key entry alloc t (some (t', some p))

theorem hashTableAddNodeInTree_outcome (hlaw : Lawful fns key true) (hwf : t.WellFormed fns key)
    (hbuckets : t.nodes = .buckets head) (hresilient : t.collisionResilient = true)
    (hroot : head (fns.home t.tableSize entry) = .tree root)
    (hnew : ∀ x ∈ t.entries, key x ≠ key entry) :
    AddOutcome fns key entry alloc t (some
      (t.hashTableAddNodeInTree fns head (fns.home t.tableSize entry) root entry alloc)) := by
  cases hnode : alloc.treeNode with
  | none =>
    rw [hashTableAddNodeInTree_none _ _ _ _ _ hnode]
    exact .failed (Or.inr hnode) t (Kept.refl hwf)
  | some address =>
    obtain ⟨t', p, hadd, hadded⟩ := hashTableAddNodeInTree_absent hlaw hwf hbuckets hresilient hroot
      hnode hnew
    rw [hadd]
    exact .added t' p hadded

omit [DecidableEq α] in
/-- What is added to a table with the same entries is added to the table. -/
theorem AddOutcome.of_kept (hkept : Kept fns key t t')
    {r : Option (J9HashTable α × Option Pointer)} (h : AddOutcome fns key entry alloc t' r) :
    AddOutcome fns key entry alloc t r := by
  cases h with
  | crash hresilient i hnone =>
    exact .crash ((congrArg (fun s => s.2.2.1) hkept.settings).symm.trans hresilient) i hnone
  | failed hnone t'' hkept' =>
    exact .failed hnone t'' (hkept.trans hkept')
  | added t'' p hadded =>
    exact .added t'' p ⟨hadded.wf, hadded.entries.trans (hkept.entries.cons entry), hadded.points,
      hadded.count.trans (congrArg (· + 1) hkept.count), hadded.settings.trans hkept.settings⟩

theorem hashTableAddNodeInList_outcome (hlaw : Lawful fns key t.collisionResilient)
    (hwf : t.WellFormed fns key) (hbuckets : t.nodes = .buckets head)
    (hchain : head (fns.home t.tableSize entry) = .list chain)
    (hnew : ∀ x ∈ t.entries, key x ≠ key entry) :
    AddOutcome fns key entry alloc t
      (t.hashTableAddNodeInList fns head (fns.home t.tableSize entry) chain entry alloc) := by
  have hi : fns.home t.tableSize entry < t.tableSize := Nat.mod_lt _ hwf.size_pos
  have hbucketNew := not_mem_bucket hbuckets hi hnew
  rw [hchain, Bucket.nodes_list] at hbucketNew
  rw [hashTableAddNodeInList, findNodeInList_absent hlaw hbucketNew]
  dsimp only
  by_cases hconv : t.Converts alloc (fns.home t.tableSize entry) chain.length
  · have hresilient := hconv.2.2.1
    rw [if_pos hconv.1, listToTree_eq t fns alloc _ hconv.1, if_pos hconv]
    cases hcapacity : alloc.treeCapacity (fns.home t.tableSize entry) with
    | false => exact .crash hresilient _ hcapacity
    | true =>
      rw [hresilient] at hlaw
      have hkept := kept_treeOf hlaw hwf hbuckets hi hresilient hchain alloc
      refine AddOutcome.of_kept hkept (hashTableAddNodeInTree_outcome hlaw hkept.wf rfl
        hresilient (Function.update_self ..) fun x hx => hnew x (hkept.entries.mem_iff.1 hx))
  · have hnone : (if chain.length > t.listToTreeThreshold then
        t.listToTree fns alloc (fns.home t.tableSize entry) chain else some none) = some none := by
      split
      · next hlong => rw [listToTree_eq t fns alloc _ hlong, if_neg hconv]
      · rfl
    rw [hnone]
    cases hnode : alloc.listNode with
    | none => exact .failed (Or.inl hnode) t (Kept.refl hwf)
    | some address => exact .added _ _ (added_listNode hwf hbuckets hchain hnew address)

/-- Another entry is added, unless the allocations for it fail. -/
theorem addNode_absent (hlaw : Lawful fns key t.collisionResilient) (hwf : t.WellFormed fns key)
    (hroom : t.isSpaceOpt = true → t.numberOfNodes + 1 < t.tableSize)
    (hnew : ∀ x ∈ t.entries, key x ≠ key entry) (alloc : Allocations α) :
    AddOutcome fns key entry alloc t (t.addNode fns entry alloc) := by
  cases hnodes : t.nodes with
  | slots slot =>
    obtain ⟨t', p, hadd, hadded⟩ := hashTableAddNodeSpaceOpt_absent hlaw hwf hnodes
      (hroom (by rw [isSpaceOpt, hnodes])) hnew
    simp only [addNode, hnodes, hadd]
    exact .added t' p hadded
  | buckets head =>
    cases hbucket : head (fns.home t.tableSize entry) with
    | tree root =>
      have hresilient := resilient_of_tree hwf hnodes (Nat.mod_lt _ hwf.size_pos) hbucket
      rw [hresilient] at hlaw
      simp only [addNode, hnodes, hbucket]
      exact hashTableAddNodeInTree_outcome hlaw hwf hnodes hresilient hbucket hnew
    | list chain =>
      simp only [addNode, hnodes, hbucket]
      exact hashTableAddNodeInList_outcome hlaw hwf hnodes hbucket hnew

end Tree

end J9HashTable

end OMR.Util.Hash
