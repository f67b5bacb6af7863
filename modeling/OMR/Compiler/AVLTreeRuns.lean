import OMR.Compiler.AVLTreeRemoval

/-!
# Runs of operations on the AVL tree of the compiler

The tree stays an AVL tree of the keys inserted and not removed exactly as long as each
operation meets its condition.
-/

namespace OMR.Compiler.AVLTree

open OMR.Lib BinTree

variable {K : Type*} [LinearOrder K] {l r t t' : Tree K} {b : ℤ} {e : Entry K} {p : Option K}
  {key : K}

section Create

theorem grows_of_mem (ht : Valid p t) (hkey : key ∈ keys t) : grows key t = false := by
  induction t generalizing p with
  | nil => cases hkey
  | node l b e r ihl ihr =>
    obtain ⟨-, -, hl, hr, hlow, hhigh⟩ := valid_node.1 ht
    rw [keys_node, List.mem_append, List.mem_cons] at hkey
    rw [grows]
    obtain hkey | rfl | hkey := hkey
    · rw [if_pos (hlow key hkey), ihl hl hkey, Bool.and_false]
    · rw [if_neg (lt_irrefl _), if_neg (lt_irrefl _)]
    · rw [if_neg (hhigh key hkey).not_gt, if_pos (hhigh key hkey), ihr hr hkey, Bool.and_false]

/-- A key that is present meets the condition. -/
theorem createMeets_of_mem (ht : Valid p t) (hkey : key ∈ keys t) : createMeets key t := by
  induction t generalizing p with
  | nil => cases hkey
  | node l b e r ihl ihr =>
    obtain ⟨-, -, hl, hr, hlow, hhigh⟩ := valid_node.1 ht
    rw [keys_node, List.mem_append, List.mem_cons] at hkey
    rw [createMeets]
    obtain hkey | rfl | hkey := hkey
    · rw [if_pos (hlow key hkey), if_neg (by simp [grows_of_mem hl hkey])]
      exact ihl hl hkey
    · rw [if_neg (lt_irrefl _), if_neg (lt_irrefl _)]
    · rw [if_neg (hhigh key hkey).not_gt, if_pos (hhigh key hkey),
        if_neg (by simp [grows_of_mem hr hkey])]
      exact ihr hr hkey

theorem findOrCreate_of_meets (ht : Valid none t) (hmeets : createMeets key t) :
    ∃ t', findOrCreate key t = some (t', decide (key ∉ keys t)) ∧ Valid none t' ∧
      ∀ k, k ∈ keys t' ↔ k = key ∨ k ∈ keys t := by
  by_cases hkey : key ∈ keys t
  · refine ⟨t, ?_, ht, fun k => ⟨.inr, ?_⟩⟩
    · rw [findOrCreate, createFrom_of_mem ht hkey]
      simp [hkey]
    · rintro (rfl | hk)
      · exact hkey
      · exact hk
  · cases hgrows : grows key t with
    | true =>
      obtain ⟨hc, -, hcreate⟩ := createFrom_of_grows (p := none) hgrows
      refine ⟨grown key none t, ?_, (grown_valid ht hgrows).1, fun k => mem_keys_grown hgrows⟩
      rw [findOrCreate, hcreate]
      simp [hkey]
    | false =>
      obtain ⟨t', hcreate, ht', -, hkeys⟩ := createFrom_of_meets ht hkey hmeets hgrows
      refine ⟨t', ?_, ht', hkeys⟩
      rw [findOrCreate, hcreate]
      simp [hkey]

theorem findOrCreate_of_not_meets (ht : Valid none t) (hmeets : createMeets key t = false)
    {changed : Bool} (hcreate : findOrCreate key t = some (t', changed)) : ¬ Sound t' := by
  have hkey : key ∉ keys t := fun hkey => by
    rw [createMeets_of_mem ht hkey] at hmeets
    cases hmeets
  obtain ⟨⟨t'', hc, c⟩, hfrom, heq⟩ := Option.map_eq_some_iff.1 hcreate
  cases heq
  exact (createFrom_of_not_meets ht hkey hmeets hfrom).not_sound

end Create

section Copy

/-- No node is heavy on the left. -/
def noneLeftHeavy : Tree K → Bool
  | .nil => true
  | .node l b _ r => b ≠ -1 && noneLeftHeavy l && noneLeftHeavy r

omit [LinearOrder K] in
theorem height_copySubtree : (copySubtree t).height = t.height := by
  induction t with
  | nil => rfl
  | node l b e r ihl ihr =>
    rw [copySubtree, height_node, height_node, height_setParent, height_setParent, ihl, ihr]

omit [LinearOrder K] in
theorem setParent_self (h : ParentsRight p t) : setParent p t = t := by
  cases t with
  | nil => rfl
  | node l b e r =>
    obtain ⟨rfl, -⟩ := h
    rfl

/-- The copy of such a tree is the tree. -/
theorem copySubtree_eq (ht : Valid p t) (hnone : noneLeftHeavy t) :
    copySubtree t = setParent none t := by
  induction t generalizing p with
  | nil => rfl
  | node l b e r ihl ihr =>
    obtain ⟨-, hfits, hl, hr, -⟩ := valid_node.1 ht
    simp only [noneLeftHeavy, Bool.and_eq_true, decide_eq_true_eq] at hnone
    have hbalance : balance b = b := by
      obtain rfl | rfl : b = 0 ∨ b = 1 := by
        have := hfits.2
        have := hnone.1.1
        omega
      all_goals rfl
    rw [copySubtree, ihl hl hnone.1.2, ihr hr hnone.2, hbalance, setParent_setParent,
      setParent_setParent, setParent_self hl.parents, setParent_self hr.parents]
    rfl

/-- A node that is heavy on the left is copied with a wrong balance. -/
theorem copySubtree_not_sound (ht : Valid p t) (hnone : noneLeftHeavy t = false) :
    ¬ Sound (copySubtree t) := by
  induction t generalizing p with
  | nil => cases hnone
  | node l b e r ihl ihr =>
    obtain ⟨-, hfits, hl, hr, -⟩ := valid_node.1 ht
    intro hsound
    rw [copySubtree, sound_node, sound_setParent, sound_setParent, height_setParent,
      height_setParent, height_copySubtree, height_copySubtree] at hsound
    obtain ⟨hnew, hsl, hsr⟩ := hsound
    have hnl : noneLeftHeavy l := by
      by_contra hnl
      exact ihl hl (Bool.eq_false_iff.2 hnl) hsl
    have hnr : noneLeftHeavy r := by
      by_contra hnr
      exact ihr hr (Bool.eq_false_iff.2 hnr) hsr
    obtain rfl : b = -1 := by
      simpa [noneLeftHeavy, hnl, hnr] using hnone
    simp only [Fits, balance] at hfits hnew
    norm_num at hnew
    omega

end Copy

/-- A tree that is valid is verified. -/
theorem verify_of_valid (ht : Valid p t) : verify p t = true := by
  induction t generalizing p with
  | nil => rfl
  | node l b e r ihl ihr =>
    obtain ⟨hparent, hfits, hl, hr, -⟩ := valid_node.1 ht
    simp only [Fits] at hfits
    rw [verify, if_neg (not_not.2 hparent), ihl hl, ihr hr]
    by_cases hnl : l = .nil
    · subst hnl
      rw [if_pos rfl]
      by_cases hnr : r = .nil
      · rw [if_pos hnr]
      · have hpos : r.height ≠ 0 := fun hzero => hnr (height_eq_zero.1 hzero)
        rw [height_nil] at hfits
        rw [if_neg hnr, if_neg (by omega)]
    · have hpos : l.height ≠ 0 := fun hzero => hnl (height_eq_zero.1 hzero)
      rw [if_neg hnl]
      by_cases hnr : r = .nil
      · subst hnr
        rw [height_nil] at hfits
        rw [if_pos rfl, if_neg (by omega)]
      · rw [if_neg hnr, if_neg (not_not.2 hfits.1.symm)]
        rfl

/-- The operations of the handler. The node that `insert` gets is in no tree. A run goes on
with the copy that `copyAll` makes. -/
inductive AVLOp (K : Type*) where
  | findOrCreate (key : K)
  | insert (key : K)
  | remove (key : K)
  | copyAll

/-- A tree, and the keys inserted and not removed. -/
structure System (K : Type*) where
  tree : Tree K
  contents : Finset K

namespace System

/-- The operation on the tree, and whether it made, took in or removed a node. -/
def perform (t : Tree K) : AVLOp K → Option (Tree K × Bool)
  | .findOrCreate key => AVLTree.findOrCreate key t
  | .insert key => AVLTree.findOrCreate key t
  | .remove key => AVLTree.remove key t
  | .copyAll => some (copySubtree t, true)

def record (contents : Finset K) : AVLOp K → Finset K
  | .findOrCreate key => insert key contents
  | .insert key => insert key contents
  | .remove key => contents.erase key
  | .copyAll => contents

def answer (contents : Finset K) : AVLOp K → Bool
  | .findOrCreate key => key ∉ contents
  | .insert key => key ∉ contents
  | .remove key => key ∈ contents
  | .copyAll => true

def exec (s : System K) (op : AVLOp K) : Option (System K) :=
  (perform s.tree op).map fun (t, _) => ⟨t, record s.contents op⟩

/-- The tree is an AVL tree of the keys. -/
structure Represents (s : System K) : Prop where
  valid : Valid none s.tree
  mem_keys : ∀ key, key ∈ keys s.tree ↔ key ∈ s.contents

/-- It is so after the operation, which answers as it should, and is verified. -/
def Kept (s : System K) (op : AVLOp K) (s' : System K) : Prop :=
  s'.Represents ∧ (perform s.tree op).map Prod.snd = some (answer s.contents op) ∧
    verify none s'.tree = true

/-- The condition of each operation. -/
def Meets (s : System K) : AVLOp K → Prop
  | .findOrCreate key => createMeets key s.tree
  | .insert key => createMeets key s.tree
  | .remove key => removeMeets key s.tree
  | .copyAll => noneLeftHeavy s.tree

instance (s : System K) : ∀ op, Decidable (Meets s op)
  | .findOrCreate key => inferInstanceAs (Decidable (createMeets key s.tree = true))
  | .insert key => inferInstanceAs (Decidable (createMeets key s.tree = true))
  | .remove key => inferInstanceAs (Decidable (removeMeets key s.tree = true))
  | .copyAll => inferInstanceAs (Decidable (noneLeftHeavy s.tree = true))

variable {s s' : System K} {op : AVLOp K}

theorem Represents.create_of_meets (h : s.Represents) (hmeets : createMeets key s.tree) :
    ∃ t', AVLTree.findOrCreate key s.tree = some (t', decide (key ∉ s.contents)) ∧
      Valid none t' ∧ ∀ k, k ∈ keys t' ↔ k ∈ insert key s.contents := by
  obtain ⟨t', hcreate, hvalid, hkeys⟩ := findOrCreate_of_meets h.valid hmeets
  refine ⟨t', ?_, hvalid, fun k => ?_⟩
  · rw [hcreate, decide_eq_decide.2 (not_congr (h.mem_keys key))]
  · rw [hkeys, Finset.mem_insert, h.mem_keys]

theorem Represents.perform_of_meets (h : s.Represents) (hmeets : s.Meets op) :
    ∃ t', perform s.tree op = some (t', answer s.contents op) ∧ Valid none t' ∧
      ∀ key, key ∈ keys t' ↔ key ∈ record s.contents op := by
  cases op with
  | findOrCreate key => exact h.create_of_meets hmeets
  | insert key => exact h.create_of_meets hmeets
  | remove key =>
    obtain ⟨t', hc, hremove, hvalid, hkeys, -⟩ :=
      removeFrom_of_meets h.valid (Nat.lt_succ_self s.tree.height) hmeets
    refine ⟨t', ?_, hvalid, fun k => ?_⟩
    · rw [perform, AVLTree.remove, hremove, answer, decide_eq_decide.2 (h.mem_keys key)]
      rfl
    · rw [hkeys, record, Finset.mem_erase, h.mem_keys, and_comm]
  | copyAll =>
    refine ⟨copySubtree s.tree, rfl, ?_, fun k => ?_⟩
    all_goals rw [copySubtree_eq h.valid hmeets]
    · exact h.valid.setParent
    · rw [keys_setParent]
      exact h.mem_keys k

theorem Represents.perform_of_not_meets (h : s.Represents) (hmeets : ¬ s.Meets op) {t' : Tree K}
    {changed : Bool} (hperform : perform s.tree op = some (t', changed)) : ¬ Sound t' := by
  have hfalse : ∀ {c : Bool}, ¬ c = true → c = false := Bool.eq_false_iff.2
  cases op with
  | findOrCreate key => exact findOrCreate_of_not_meets h.valid (hfalse hmeets) hperform
  | insert key => exact findOrCreate_of_not_meets h.valid (hfalse hmeets) hperform
  | remove key =>
    obtain ⟨⟨t'', hc, c⟩, hfrom, heq⟩ := Option.map_eq_some_iff.1 hperform
    cases heq
    exact removeFrom_of_not_meets h.valid (Nat.lt_succ_self _) (hfalse hmeets) hfrom
  | copyAll =>
    cases hperform
    exact copySubtree_not_sound h.valid (hfalse hmeets)

theorem Represents.exec_of_meets (h : s.Represents) (hmeets : s.Meets op) :
    ∃ s', s.exec op = some s' ∧ s.Kept op s' := by
  obtain ⟨t', hperform, hvalid, hkeys⟩ := h.perform_of_meets hmeets
  refine ⟨⟨t', record s.contents op⟩, ?_, ⟨hvalid, hkeys⟩, ?_, verify_of_valid hvalid⟩
  · rw [exec, hperform, Option.map_some]
  · rw [hperform, Option.map_some]

theorem Represents.kept_iff (h : s.Represents) :
    (∃ s', s.exec op = some s' ∧ s.Kept op s') ↔ s.Meets op := by
  refine ⟨?_, h.exec_of_meets⟩
  rintro ⟨s', hexec, hkept⟩
  by_contra hmeets
  obtain ⟨⟨t', changed⟩, hperform, rfl⟩ := Option.map_eq_some_iff.1 hexec
  exact h.perform_of_not_meets hmeets hperform hkept.1.valid.sound

/-- In a run from the empty tree every operation leaves an AVL tree of the keys inserted and
not removed exactly as long as each operation meets its condition. -/
theorem avlRun_keeps_iff (ops : List (AVLOp K)) :
    EveryStepKeeps exec Kept ⟨.nil, ∅⟩ ops ↔ EveryStep exec Meets ⟨.nil, ∅⟩ ops := by
  have hempty : Represents (⟨.nil, ∅⟩ : System K) := ⟨valid_nil, fun key => by simp⟩
  refine everyStepKeeps_iff (fun s op h _ => h.kept_iff) (fun s op s' h _ hmeets hexec => ?_)
    hempty (everyStep_true _ ops)
  obtain ⟨s'', hexec', hkept⟩ := h.exec_of_meets hmeets
  obtain rfl := Option.some.inj (hexec.symm.trans hexec')
  exact hkept.1

/-- The third of three falling keys leaves the root with a left subtree that is two levels
higher, and a balance of 0. -/
theorem three_insertions_break :
    ¬ EveryStepKeeps exec Kept (⟨.nil, ∅⟩ : System ℤ) [.insert 3, .insert 2, .insert 1] := by
  rintro ⟨s₁, h₁, -, s₂, h₂, -, s₃, h₃, hkept, -⟩
  cases h₁
  cases h₂
  cases h₃
  have hroot := hkept.1.valid.sound.1.1
  revert hroot
  decide

end System

end OMR.Compiler.AVLTree
