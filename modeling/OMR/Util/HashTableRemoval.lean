import OMR.Util.HashTableAddContract

/-!
# Finding and removing entries

`hashTableFind` of a well-formed table comes to the entry that has the key, and
`hashTableRemove` takes that entry out of the table and no other one.
-/

namespace OMR.Util.Hash

open OMR.Lib OMR.Util.AVL

variable {α κ : Type*} {fns : HashFunctions α} {key : α → κ} {entry x : α}

/-- `avl_delete` of a key that is there takes one node out of the tree. -/
theorem avlDelete_perm [LinearOrder κ] (hlaw : Lawful fns key true) {root : AVL.Tree (Node α)}
    (hb : WellBalanced root) (ho : root.Ordered (Node.key key)) {n node : Node α}
    (hnode : node ∈ root) (hkey : Node.key key node = Node.key key n) :
    (avlDelete fns.compareNodes root n).2 = some (.node .nil .balanced node .nil) ∧
      (avlDelete fns.compareNodes root n).1.Ordered (Node.key key) ∧
      WellBalanced (avlDelete fns.compareNodes root n).1 ∧
      root.inorder.Perm (node :: (avlDelete fns.compareNodes root n).1.inorder) := by
  obtain ⟨hremoved, ho', hb', -⟩ := avlDelete_of_mem hlaw.compareNodes hb ho hnode hkey
  refine ⟨hremoved, ho', hb', ?_⟩
  obtain ⟨hnone, -⟩ | ⟨xs, e, ys, root', hc, hin, -, hres, hrep⟩ :=
    deleteNode_spec hlaw.compareNodes n hb ho
  · exact absurd hkey (hnone node hnode)
  · simp only [avlDelete, hres] at hremoved ⊢
    cases hremoved
    rw [hin, hrep.inorder]
    exact List.perm_middle

namespace J9HashTable

variable [LinearOrder κ] {t t' : J9HashTable α} {resilient : Bool}

/-! ### Finding -/

theorem hashTableFind_present (hlaw : Lawful fns key t.collisionResilient)
    (hwf : t.WellFormed fns key) (hx : x ∈ t.entries) (hkey : key x = key entry) :
    ∃ p, t.hashTableFind fns entry = some (some p) ∧ t.PointsTo p x := by
  cases hnodes : t.nodes with
  | slots slot =>
    rw [entries_slots hnodes] at hx
    obtain ⟨p, hp, hslot⟩ := LinearProbing.mem_stored.1 hx
    refine ⟨.slot p, ?_, ?_⟩
    · simp only [hashTableFind, hnodes, findNodeSpaceOpt_present hlaw hwf hnodes hp hslot hkey,
        Option.map_some, hslot]
    · rw [PointsTo, hnodes]
      exact ⟨hp, hslot⟩
  | buckets head =>
    have hi : fns.home t.tableSize entry < t.tableSize := Nat.mod_lt _ hwf.size_pos
    obtain ⟨hok, -⟩ := wellFormed_buckets hwf hnodes _ hi
    obtain ⟨node, hnode, rfl⟩ := mem_bucket hlaw hwf hnodes hx hkey
    cases hbucket : head (fns.home t.tableSize entry) with
    | list chain =>
      have hd := hok.distinct
      rw [hbucket, Bucket.nodes_list] at hnode hd
      refine ⟨.listNode node.address, ?_, ?_⟩
      · simp only [hashTableFind, hnodes, hbucket, findNodeInList_present hlaw hd hnode hkey,
          Option.map_some]
      · rw [PointsTo, hnodes]
        exact ⟨_, hi, by rw [hbucket]; exact hnode⟩
    | tree root =>
      rw [hbucket, Bucket.nodes_tree] at hnode
      rw [resilient_of_tree hwf hnodes hi hbucket] at hlaw
      have hsearch : fns.hashTableFindNodeInTree root entry = some node :=
        (findNode_eq_some_iff hlaw.search entry (hok.tree root hbucket).1 node).2 ⟨hnode, hkey⟩
      refine ⟨.treeNode node.address, ?_, ?_⟩
      · simp only [hashTableFind, hnodes, hbucket, hsearch, Option.map_some]
      · rw [PointsTo, hnodes]
        exact ⟨_, hi, by rw [hbucket]; exact hnode⟩

theorem hashTableFind_absent (hlaw : Lawful fns key t.collisionResilient)
    (hwf : t.WellFormed fns key) (hnew : ∀ x ∈ t.entries, key x ≠ key entry) :
    t.hashTableFind fns entry = some none := by
  cases hnodes : t.nodes with
  | slots slot =>
    obtain ⟨p, -, hfind, hempty, -⟩ := findNodeSpaceOpt_absent hlaw hwf hnodes hnew
    simp only [hashTableFind, hnodes, hfind, Option.map_some, hempty, Option.map_none]
  | buckets head =>
    have hi : fns.home t.tableSize entry < t.tableSize := Nat.mod_lt _ hwf.size_pos
    obtain ⟨hok, -⟩ := wellFormed_buckets hwf hnodes _ hi
    have hnew' := not_mem_bucket hnodes hi hnew
    cases hbucket : head (fns.home t.tableSize entry) with
    | list chain =>
      rw [hbucket, Bucket.nodes_list] at hnew'
      simp only [hashTableFind, hnodes, hbucket, findNodeInList_absent hlaw hnew', Option.map_none]
    | tree root =>
      rw [hbucket, Bucket.nodes_tree] at hnew'
      rw [resilient_of_tree hwf hnodes hi hbucket] at hlaw
      have hsearch : fns.hashTableFindNodeInTree root entry = none := by
        rw [Option.eq_none_iff_forall_ne_some]
        intro node hnode
        obtain ⟨hmem, hkey⟩ :=
          (findNode_eq_some_iff hlaw.search entry (hok.tree root hbucket).1 node).1 hnode
        exact hnew' node hmem hkey
      simp only [hashTableFind, hnodes, hbucket, hsearch, Option.map_none]

/-! ### Removing -/

/-- The entry is no longer in the table, and the others are. -/
structure Removed (fns : HashFunctions α) (key : α → κ) (x : α) (t t' : J9HashTable α) :
    Prop where
  wf : t'.WellFormed fns key
  entries : t.entries.Perm (x :: t'.entries)
  settings : t'.settings = t.settings
  isSpaceOpt : t'.isSpaceOpt = t.isSpaceOpt

/-- The key of the entry is gone. -/
theorem Removed.key_ne (h : Removed fns key x t t') (hlaw : Lawful fns key resilient)
    (hwf : t.WellFormed fns key) : ∀ y ∈ t'.entries, key y ≠ key x := by
  intro y hy
  have hdistinct := (h.entries.pairwise_iff fun hab => hab.symm).1 (hwf.entries_distinct hlaw)
  exact ((List.pairwise_cons.1 hdistinct).1 y hy).symm

/-- A bucket without one of its nodes. -/
theorem removed_bucket (hwf : t.WellFormed fns key) {head : ℕ → Bucket α}
    (hbuckets : t.nodes = .buckets head) {i : ℕ} (hi : i < t.tableSize) {node : Node α}
    {b : Bucket α} (hperm : (head i).nodes.Perm (node :: b.nodes))
    (htree : ∀ root, b = .tree root → root.Ordered (Node.key key) ∧ WellBalanced root)
    (hplain : t.collisionResilient = false → b = .list b.chain)
    (hnodes : t'.nodes = .buckets (Function.update head i b)) (hsize : t'.tableSize = t.tableSize)
    (hsettings : t'.settings = t.settings) (hcount : t'.numberOfNodes = t.numberOfNodes - 1)
    (htrees : t'.numberOfTreeNodes + (head i).treeNodes.length =
      t.numberOfTreeNodes + b.treeNodes.length) : Removed fns key node.data t t' := by
  obtain ⟨hok, -⟩ := wellFormed_buckets hwf hbuckets i hi
  have hok' : BucketOk fns key t.tableSize i b := by
    refine ⟨fun n hn => hok.home n (hperm.mem_iff.2 (List.mem_cons_of_mem _ hn)), ?_, htree⟩
    exact (hok.distinct.perm hperm).sublist (List.sublist_cons_self node b.nodes)
  have hpos : 0 < t.numberOfNodes := by
    rw [hwf.count]
    refine List.length_pos_of_mem (a := node.data) ((mem_entries_buckets hbuckets).2 ?_)
    exact ⟨i, hi, node, hperm.mem_iff.2 (List.mem_cons_self ..), rfl⟩
  obtain ⟨hwf', hentries⟩ :
      t'.WellFormed fns key ∧ ([node.data] ++ t'.entries).Perm ([] ++ t.entries) := by
    refine wellFormed_update hwf hbuckets hi hok' hplain ?_ hnodes hsize hsettings ?_ htrees
    · exact (hperm.map Node.data).symm
    · change t'.numberOfNodes + 1 = t.numberOfNodes
      omega
  exact ⟨hwf', hentries.symm, hsettings, by rw [isSpaceOpt, isSpaceOpt, hnodes, hbuckets]⟩

variable [DecidableEq α]

theorem hashTableRemove_present (hlaw : Lawful fns key t.collisionResilient)
    (hwf : t.WellFormed fns key) (hx : x ∈ t.entries) (hkey : key x = key entry) :
    ∃ t' p, t.hashTableRemove fns entry = some (t', some p) ∧ t.PointsTo p x ∧
      Removed fns key x t t' := by
  cases hnodes : t.nodes with
  | slots slot =>
    obtain ⟨hprobed, hdistinct, hroom, hplain⟩ := wellFormed_slots hwf hnodes
    obtain ⟨e, he, hempty⟩ := hwf.exists_empty hnodes
    have hcount := hwf.count
    rw [entries_slots hnodes] at hx hcount
    obtain ⟨p, hp, hslot⟩ := LinearProbing.mem_stored.1 hx
    obtain ⟨slot', hclose, hprobed', hdistinct', hstored⟩ :=
      LinearProbing.remove_spec hprobed hdistinct hp hslot he hempty
    have hlength := hstored.length_eq
    rw [List.length_cons] at hlength
    have hcount' : t.numberOfNodes - 1 = (LinearProbing.stored t.tableSize slot').length := by
      omega
    refine ⟨{ t with nodes := .slots slot', numberOfNodes := t.numberOfNodes - 1 }, .slot p, ?_, ?_,
      ⟨hwf.size_pos, hcount', (treeCount_slots hwf hnodes).trans rfl, ?_⟩, ?_, rfl,
      by rw [isSpaceOpt, isSpaceOpt, hnodes]⟩
    · simp only [hashTableRemove, hnodes, findNodeSpaceOpt_present hlaw hwf hnodes hp hslot hkey,
        hslot, reduceCtorEq, if_false, hclose, Option.map_some]
    · rw [PointsTo, hnodes]
      exact ⟨hp, hslot⟩
    · exact ⟨hprobed', hdistinct', (Nat.sub_le _ _).trans_lt hroom, hplain⟩
    · rw [entries_slots hnodes]
      exact hstored
  | buckets head =>
    have hi : fns.home t.tableSize entry < t.tableSize := Nat.mod_lt _ hwf.size_pos
    obtain ⟨hok, -⟩ := wellFormed_buckets hwf hnodes _ hi
    obtain ⟨node, hnode, rfl⟩ := mem_bucket hlaw hwf hnodes hx hkey
    cases hbucket : head (fns.home t.tableSize entry) with
    | list chain =>
      have hd := hok.distinct
      rw [hbucket, Bucket.nodes_list] at hnode hd
      have hfind := findNodeInList_present hlaw hd hnode hkey
      have hperm : chain.Perm
          (node :: chain.eraseP fun node => fns.hashEqualFn node.data entry) := by
        obtain ⟨m, xs, ys, -, hm, hchain, herase⟩ :=
          List.exists_of_eraseP (p := fun node => fns.hashEqualFn node.data entry) hnode
            ((hlaw.equal_iff _ _).2 hkey)
        have hmem : m ∈ chain := by
          rw [hchain]
          exact List.mem_append_right _ (List.mem_cons_self ..)
        have hsame : m = node :=
          hd.eq_of_key hmem hnode (((hlaw.equal_iff _ _).1 hm).trans hkey.symm)
        rw [herase, ← hsame, hchain]
        exact List.perm_middle
      refine ⟨{ t with
        nodes := .buckets (Function.update head (fns.home t.tableSize entry)
          (.list (chain.eraseP fun node => fns.hashEqualFn node.data entry)))
        numberOfNodes := t.numberOfNodes - 1 }, .listNode node.address, ?_, ?_, ?_⟩
      · simp only [hashTableRemove, hnodes, hbucket, hfind]
      · rw [PointsTo, hnodes]
        exact ⟨_, hi, by rw [hbucket]; exact hnode⟩
      · refine removed_bucket hwf hnodes hi (b := .list _) ?_ (fun _ h => by cases h) (fun _ => rfl)
          rfl rfl rfl rfl ?_
        · rw [hbucket, Bucket.nodes_list, Bucket.nodes_list]
          exact hperm
        · rw [hbucket]
          rfl
    | tree root =>
      rw [hbucket, Bucket.nodes_tree] at hnode
      have hresilient := resilient_of_tree hwf hnodes hi hbucket
      rw [hresilient] at hlaw
      obtain ⟨ho, hb⟩ := hok.tree root hbucket
      obtain ⟨hremoved, ho', hb', hperm⟩ :=
        avlDelete_perm hlaw hb ho (n := ⟨0, entry⟩) hnode hkey
      have hlength := hperm.length_eq
      rw [List.length_cons] at hlength
      have hpos : 0 < t.numberOfTreeNodes := by
        rw [hwf.treeCount, treeNodes_buckets hnodes]
        refine List.length_pos_of_mem (a := node) (List.mem_flatMap.2 ⟨_, List.mem_range.2 hi, ?_⟩)
        rw [hbucket]
        exact hnode
      refine ⟨{ t with
        nodes := .buckets (Function.update head (fns.home t.tableSize entry)
          (.tree (avlDelete fns.compareNodes root ⟨0, entry⟩).1))
        numberOfNodes := t.numberOfNodes - 1
        numberOfTreeNodes := t.numberOfTreeNodes - 1 }, .treeNode node.address, ?_, ?_, ?_⟩
      · simp only [hashTableRemove, hnodes, hbucket, hremoved]
      · rw [PointsTo, hnodes]
        exact ⟨_, hi, by rw [hbucket]; exact hnode⟩
      · refine removed_bucket hwf hnodes hi (b := .tree _) ?_
          (fun root' h => by cases h; exact ⟨ho', hb'⟩)
          (fun h => by rw [hresilient] at h; cases h) rfl rfl rfl rfl ?_
        · rw [hbucket, Bucket.nodes_tree, Bucket.nodes_tree]
          exact hperm
        · rw [hbucket, Bucket.treeNodes, Bucket.treeNodes]
          change t.numberOfTreeNodes - 1 + _ = _
          omega

theorem hashTableRemove_absent (hlaw : Lawful fns key t.collisionResilient)
    (hwf : t.WellFormed fns key) (hnew : ∀ x ∈ t.entries, key x ≠ key entry) :
    t.hashTableRemove fns entry = some (t, none) := by
  cases hnodes : t.nodes with
  | slots slot =>
    obtain ⟨p, -, hfind, hempty, -⟩ := findNodeSpaceOpt_absent hlaw hwf hnodes hnew
    simp only [hashTableRemove, hnodes, hfind, hempty, if_true]
  | buckets head =>
    have hi : fns.home t.tableSize entry < t.tableSize := Nat.mod_lt _ hwf.size_pos
    obtain ⟨hok, -⟩ := wellFormed_buckets hwf hnodes _ hi
    have hnew' := not_mem_bucket hnodes hi hnew
    cases hbucket : head (fns.home t.tableSize entry) with
    | list chain =>
      rw [hbucket, Bucket.nodes_list] at hnew'
      simp only [hashTableRemove, hnodes, hbucket, findNodeInList_absent hlaw hnew']
    | tree root =>
      rw [hbucket, Bucket.nodes_tree] at hnew'
      rw [resilient_of_tree hwf hnodes hi hbucket] at hlaw
      obtain ⟨ho, hb⟩ := hok.tree root hbucket
      have hdelete := avlDelete_of_not_mem hlaw.compareNodes hb ho (n := ⟨0, entry⟩) hnew'
      simp only [hashTableRemove, hnodes, hbucket, hdelete]

end J9HashTable

end OMR.Util.Hash
