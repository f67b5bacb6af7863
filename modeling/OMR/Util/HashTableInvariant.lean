import OMR.Util.AVLSet
import OMR.Util.HashTable

/-!
# Well-formed hash tables

An entry has a key, which is what the functions of the table look at. A table is well
formed if every entry is where its key is looked for, no key is there twice, and the two
counters count the entries and those of them that are in trees. A space-optimised table
also has an empty slot, as every probe sequence ends in one or at the entry it looks for.
-/

namespace OMR.Util.Hash

open OMR.Lib OMR.Util.AVL

variable {α κ : Type*}

/-- All nodes of a bucket. -/
def Bucket.nodes (b : Bucket α) : List (Node α) := b.chain ++ b.treeNodes

@[simp] theorem Bucket.nodes_list (chain : List (Node α)) : (Bucket.list chain).nodes = chain :=
  List.append_nil _

@[simp] theorem Bucket.nodes_tree (root : AVL.Tree (Node α)) :
    (Bucket.tree root).nodes = root.inorder := List.nil_append _

/-- The functions of a table look at the keys of the entries only: equal keys have equal hashes,
and in a collision-resilient table the comparator orders the keys. -/
structure Lawful [LinearOrder κ] (fns : HashFunctions α) (key : α → κ)
    (collisionResilient : Bool) : Prop where
  equal_iff : ∀ a b, fns.hashEqualFn a b = true ↔ key a = key b
  hash_eq : ∀ a b, key a = key b → fns.hashFn a = fns.hashFn b
  decides : collisionResilient = true → Decides fns.comparatorFn key key

/-- The key of the entry in a node. -/
def Node.key (key : α → κ) (node : Node α) : κ := key node.data

namespace Lawful

variable [LinearOrder κ] {fns : HashFunctions α} {key : α → κ} {resilient : Bool}

theorem home_eq (h : Lawful fns key resilient) {a b : α} (hkey : key a = key b) (n : ℕ) :
    fns.home n a = fns.home n b := by
  rw [HashFunctions.home, HashFunctions.home, h.hash_eq a b hkey]

theorem compareNodes (h : Lawful fns key true) :
    Decides fns.compareNodes (Node.key key) (Node.key key) :=
  ⟨fun a b => (h.decides rfl).lt_iff a.data b.data, fun a b => (h.decides rfl).eq_iff a.data b.data⟩

theorem search (h : Lawful fns key true) :
    Decides (fun entry (node : Node α) => fns.comparatorFn entry node.data) key (Node.key key) :=
  ⟨fun a b => (h.decides rfl).lt_iff a b.data, fun a b => (h.decides rfl).eq_iff a b.data⟩

end Lawful

/-- Nodes with distinct keys. -/
def KeysDistinct (key : α → κ) (nodes : List (Node α)) : Prop :=
  nodes.Pairwise fun a b => key a.data ≠ key b.data

namespace KeysDistinct

variable {key : α → κ} {l l' : List (Node α)}

theorem perm (h : KeysDistinct key l) (hperm : l.Perm l') : KeysDistinct key l' :=
  (hperm.pairwise_iff fun hab => hab.symm).1 h

theorem sublist (h : KeysDistinct key l) (hsub : l'.Sublist l) : KeysDistinct key l' :=
  List.Pairwise.sublist hsub h

theorem eq_of_key (h : KeysDistinct key l) {a b : Node α} (ha : a ∈ l) (hb : b ∈ l)
    (hkey : key a.data = key b.data) : a = b := by
  have : Std.Symm fun a b : Node α => key a.data ≠ key b.data := ⟨fun _ _ hab => hab.symm⟩
  by_contra hne
  exact h.forall ha hb hne hkey

/-- Whether the keys are distinct is a matter of the entries. -/
theorem map_iff : KeysDistinct key l ↔ (l.map Node.data).Pairwise fun a b => key a ≠ key b := by
  rw [List.pairwise_map]
  rfl

theorem of_data (h : KeysDistinct key l) (hperm : (l'.map Node.data).Perm (l.map Node.data)) :
    KeysDistinct key l' :=
  map_iff.2 ((hperm.symm.pairwise_iff fun hab => hab.symm).1 (map_iff.1 h))

end KeysDistinct

/-- What a bucket holds belongs there, and no key is there twice. A tree is ordered by the keys
and balanced. -/
structure BucketOk [LinearOrder κ] (fns : HashFunctions α) (key : α → κ) (tableSize i : ℕ)
    (b : Bucket α) : Prop where
  home : ∀ node ∈ b.nodes, fns.home tableSize node.data = i
  distinct : KeysDistinct key b.nodes
  tree : ∀ root, b = .tree root → root.Ordered (Node.key key) ∧ WellBalanced root

namespace Nodes

/-- The entries of an array. -/
def entries (tableSize : ℕ) : Nodes α → List α
  | .slots slot => LinearProbing.stored tableSize slot
  | .buckets head => (List.range tableSize).flatMap fun i => (head i).nodes.map Node.data

/-- The tree nodes of an array. -/
def treeNodes (tableSize : ℕ) : Nodes α → List (Node α)
  | .slots _ => []
  | .buckets head => (List.range tableSize).flatMap fun i => (head i).treeNodes

/-- A pointer leads to an entry. -/
def PointsTo (tableSize : ℕ) : Nodes α → Pointer → α → Prop
  | .slots slot, .slot i, x => i < tableSize ∧ slot i = some x
  | .buckets head, .listNode a, x => ∃ i < tableSize, ⟨a, x⟩ ∈ (head i).chain
  | .buckets head, .treeNode a, x => ∃ i < tableSize, ⟨a, x⟩ ∈ (head i).treeNodes
  | _, _, _ => False

end Nodes

namespace J9HashTable

variable (t : J9HashTable α)

/-- The entries of a table. -/
def entries : List α := t.nodes.entries t.tableSize

/-- A pointer leads to an entry of the table. -/
def PointsTo (p : Pointer) (x : α) : Prop := t.nodes.PointsTo t.tableSize p x

/-- The array of a table is in order. -/
def ArrayOk [LinearOrder κ] (fns : HashFunctions α) (key : α → κ) : Prop :=
  match t.nodes with
  | .slots slot => LinearProbing.Probed t.tableSize (fns.home t.tableSize) slot ∧
      LinearProbing.Distinct t.tableSize key slot ∧ t.numberOfNodes < t.tableSize ∧
      t.collisionResilient = false
  | .buckets head => ∀ i < t.tableSize, BucketOk fns key t.tableSize i (head i) ∧
      (t.collisionResilient = false → head i = .list (head i).chain)

/-- The invariant of a table. -/
structure WellFormed [LinearOrder κ] (fns : HashFunctions α) (key : α → κ) : Prop where
  size_pos : 0 < t.tableSize
  count : t.numberOfNodes = t.entries.length
  treeCount : t.numberOfTreeNodes = (t.nodes.treeNodes t.tableSize).length
  array : t.ArrayOk fns key

variable {t}

theorem entries_slots {slot : ℕ → Option α} (h : t.nodes = .slots slot) :
    t.entries = LinearProbing.stored t.tableSize slot := by
  rw [entries, h]
  rfl

theorem entries_buckets {head : ℕ → Bucket α} (h : t.nodes = .buckets head) :
    t.entries = (List.range t.tableSize).flatMap fun i => (head i).nodes.map Node.data := by
  rw [entries, h]
  rfl

theorem mem_entries_buckets {head : ℕ → Bucket α} (h : t.nodes = .buckets head) {x : α} :
    x ∈ t.entries ↔ ∃ i < t.tableSize, ∃ node ∈ (head i).nodes, node.data = x := by
  simp [entries_buckets h]

/-- An entry is what some pointer leads to. -/
theorem mem_entries_iff {x : α} : x ∈ t.entries ↔ ∃ p, t.PointsTo p x := by
  unfold PointsTo
  cases h : t.nodes with
  | slots slot =>
    rw [entries_slots h, LinearProbing.mem_stored]
    constructor
    · rintro ⟨i, hi, hx⟩
      exact ⟨.slot i, hi, hx⟩
    · rintro ⟨p, hp⟩
      cases p with
      | slot i => exact ⟨i, hp⟩
      | listNode a => exact hp.elim
      | treeNode a => exact hp.elim
  | buckets head =>
    rw [mem_entries_buckets h]
    constructor
    · rintro ⟨i, hi, ⟨a, y⟩, hnode, rfl⟩
      obtain hnode | hnode := List.mem_append.1 hnode
      · exact ⟨.listNode a, i, hi, hnode⟩
      · exact ⟨.treeNode a, i, hi, hnode⟩
    · rintro ⟨p, hp⟩
      cases p with
      | slot i => exact hp.elim
      | listNode a =>
        obtain ⟨i, hi, hnode⟩ := hp
        exact ⟨i, hi, ⟨a, x⟩, List.mem_append_left _ hnode, rfl⟩
      | treeNode a =>
        obtain ⟨i, hi, hnode⟩ := hp
        exact ⟨i, hi, ⟨a, x⟩, List.mem_append_right _ hnode, rfl⟩

end J9HashTable

/-- A list of lists is one of them and the others, whatever that one is. -/
theorem flatMap_update_perm {β γ : Type*} (head : ℕ → β) (f : β → List γ) {i n : ℕ} (hi : i < n) :
    ∃ rest, ∀ b, ((List.range n).flatMap fun j => f (Function.update head i b j)).Perm
      (f b ++ rest) := by
  refine ⟨((List.range n).erase i).flatMap fun j => f (head j), fun b => ?_⟩
  have hperm := List.perm_cons_erase (List.mem_range.2 hi)
  refine (hperm.flatMap_right _).trans ?_
  rw [List.flatMap_cons, Function.update_self]
  refine List.Perm.append_left _ (List.Perm.of_eq (List.flatMap_congr fun j hj => ?_))
  rw [Function.update_of_ne (List.nodup_range.mem_erase_iff.1 hj).1]

/-- One member changes: the list changes by what comes and what goes. -/
theorem flatMap_perm_of_update {β γ : Type*} (f : β → List γ) {head : ℕ → β} {i n : ℕ} {b : β}
    {xs ys : List γ} (hi : i < n) (hb : (ys ++ f b).Perm (xs ++ f (head i))) :
    (ys ++ (List.range n).flatMap fun j => f (Function.update head i b j)).Perm
      (xs ++ (List.range n).flatMap fun j => f (head j)) := by
  obtain ⟨rest, hrest⟩ := flatMap_update_perm head f hi
  have hold := hrest (head i)
  rw [Function.update_eq_self] at hold
  refine ((hrest b).append_left ys).trans ?_
  rw [← List.append_assoc]
  refine (hb.append_right rest).trans ?_
  rw [List.append_assoc]
  exact hold.symm.append_left xs

/-- The members of a list, sorted into groups. -/
theorem flatMap_filter_perm {β : Type*} (f : β → ℕ) (l : List β) {n : ℕ} (h : ∀ x ∈ l, f x < n) :
    ((List.range n).flatMap fun i => l.filter fun x => f x = i).Perm l := by
  have hbelow : ∀ m, ((List.range m).flatMap fun i => l.filter fun x => f x = i).Perm
      (l.filter fun x => f x < m) := by
    intro m
    induction m with
    | zero => simp
    | succ m ih =>
      rw [List.range_succ, List.flatMap_append, List.flatMap_singleton]
      refine (ih.append_right _).trans ?_
      have hsplit := List.filter_append_perm (fun x => decide (f x < m))
        (l.filter fun x => f x < m + 1)
      rw [List.filter_filter, List.filter_filter] at hsplit
      refine List.Perm.trans (List.Perm.of_eq ?_) hsplit
      congr 1
      · refine List.filter_congr fun x _ => ?_
        rw [Bool.eq_iff_iff, Bool.and_eq_true, decide_eq_true_eq, decide_eq_true_eq]
        omega
      · refine List.filter_congr fun x _ => ?_
        rw [Bool.eq_iff_iff, Bool.and_eq_true, decide_eq_true_eq, decide_eq_true_eq,
          Bool.not_eq_true', decide_eq_false_iff_not]
        omega
  refine (hbelow n).trans (List.Perm.of_eq (List.filter_eq_self.2 fun x hx => ?_))
  simpa using h x hx

end OMR.Util.Hash
