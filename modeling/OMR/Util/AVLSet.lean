import OMR.Util.AVLBalance

/-!
# The AVL tree as an ordered set

Insertion, deletion and search of `avlsup.c` against the in-order traversal, and
the invariant of every tree that a sequence of calls builds from the empty one.
The comparators of the source return a signed number of which only the sign is
used. `Decides` says that this sign orders the keys, which is a strict total
order on nodes up to nodes comparing equal.
-/

namespace OMR.Util.AVL

open OMR.Lib BinTree

variable {α σ κ : Type*} [LinearOrder κ] {key : α → κ}

/-- The sign of `cmp s a` is the order of the key of `s` and the key of `a`. -/
structure Decides (cmp : σ → α → ℤ) (skey : σ → κ) (key : α → κ) : Prop where
  lt_iff : ∀ s a, cmp s a < 0 ↔ skey s < key a
  eq_iff : ∀ s a, cmp s a = 0 ↔ skey s = key a

section Node

variable {l r : Tree α} {b : Balance} {e : α} {k : κ}

/-- A key below the root's is below everything from the root on. -/
theorem lt_right_of_lt (ho : (node l b e r).Ordered key) (hk : k < key e) :
    ∀ y ∈ e :: r.inorder, k < key y := by
  obtain ⟨-, -, -, her⟩ := ordered_node.1 ho
  intro y hy
  rcases List.mem_cons.1 hy with rfl | hy
  · exact hk
  · exact hk.trans (her y hy)

/-- A key above the root's is above everything to the left of the root. -/
theorem left_lt_of_lt (ho : (node l b e r).Ordered key) (hk : key e < k) :
    ∀ x ∈ l.inorder, key x < k := by
  obtain ⟨-, -, hle, -⟩ := ordered_node.1 ho
  exact fun x hx => (hle x hx).trans hk

end Node

/-- A comparator that answers neither zero nor less answers greater. -/
theorem Decides.gt_of_not {cmp : σ → α → ℤ} {skey : σ → κ} (hcmp : Decides cmp skey key)
    {s : σ} {a : α} (h0 : ¬ cmp s a = 0) (hlt : ¬ cmp s a < 0) : key a < skey s := by
  rcases lt_trichotomy (skey s) (key a) with h | h | h
  · exact absurd ((hcmp.lt_iff s a).2 h) hlt
  · exact absurd ((hcmp.eq_iff s a).2 h) h0
  · exact h

/-- How `insertNode` ends: the key was there and nothing changed, or the new node
stands between the smaller and the larger ones of the old traversal. -/
def InsertSpec (key : α → κ) (t : Tree α) (n : α) (res : InsertResult α) : Prop :=
  (∃ e ∈ t, key e = key n ∧ res = ⟨t, e, 0⟩) ∨
  (res.find = n ∧ ∃ xs ys, t.inorder = xs ++ ys ∧ (∀ x ∈ xs, key x < key n) ∧
    (∀ y ∈ ys, key n < key y) ∧
    Repaired (xs ++ n :: ys) t.height 1 (res.tree, res.heightChange))

theorem Repaired.unitChange {entries : List α} {h : ℕ} {hc : ℤ} {res : Tree α × ℤ}
    (hrep : Repaired entries h hc res) (hu : UnitChange hc) : UnitChange res.2 := by
  rcases hrep.change with h0 | h1
  · exact Or.inl h0
  · rw [h1]
    exact hu

/-- A repaired step may be seen as a step of its caller. -/
theorem Repaired.trans {xs ys : List α} {h h' : ℕ} {hc : ℤ} {below res : Tree α × ℤ}
    (hbelow : Repaired xs h hc below) (hrep : Repaired ys h' below.2 res) :
    Repaired ys h' hc res where
  wellBalanced := hrep.wellBalanced
  inorder := hrep.inorder
  height := hrep.height
  grown := hrep.grown
  change := by
    rcases hrep.change with h0 | h1
    · exact Or.inl h0
    · rw [h1]
      exact hbelow.change

/-- `rebalance` is the identity when the height below did not change, so the test
of `insertNode` before calling it may be left out. -/
theorem rebalance_of_find [DecidableEq α] {t : Tree α} {dir hc : ℤ} {find n : α}
    (hfind : find = n) :
    (if find = n ∧ hc ≠ 0 then
      (⟨(rebalance t dir hc).1, find, (rebalance t dir hc).2⟩ : InsertResult α)
      else ⟨t, find, hc⟩) = ⟨(rebalance t dir hc).1, n, (rebalance t dir hc).2⟩ := by
  subst hfind
  by_cases hc0 : hc = 0
  · simp [hc0, rebalance]
  · simp [hc0]

theorem insertNode_spec [DecidableEq α] {cmp : α → α → ℤ} (hcmp : Decides cmp key key) (n : α)
    {t : Tree α} (hb : WellBalanced t) (ho : t.Ordered key) :
    InsertSpec key t n (insertNode cmp n t) := by
  induction t with
  | nil =>
    refine Or.inr ⟨rfl, [], [], rfl, by simp, by simp, ?_⟩
    exact ⟨by simp [insertNode], by simp [insertNode], by simp [insertNode],
      Or.inr rfl, fun _ => Or.inr (by simp [insertNode])⟩
  | node l b e r ihl ihr =>
    obtain ⟨hol, hor, hle, her⟩ := ordered_node.1 ho
    obtain ⟨hfit, hbl, hbr⟩ := wellBalanced_node.1 hb
    rw [insertNode]
    by_cases h0 : cmp n e = 0
    · -- the node compares equal to the one stored here
      refine Or.inl ⟨e, by simp [mem_def], ((hcmp.eq_iff n e).1 h0).symm, ?_⟩
      simp [h0]
    · simp only [h0, if_false]
      by_cases hlt : cmp n e < 0
      · have hk : key n < key e := (hcmp.lt_iff n e).1 hlt
        simp only [hlt, if_true]
        rcases ihl hbl hol with ⟨e', he', hke, hres⟩ | ⟨hfind, xs, ys, hl, hxs, hys, hrep⟩
        · refine Or.inl ⟨e', by simp [mem_def, mem_def.1 he'], hke, ?_⟩
          simp [hres]
        · rw [rebalance_of_find hfind]
          refine Or.inr ⟨rfl, xs, ys ++ e :: r.inorder, by simp [hl], hxs, ?_, ?_⟩
          · intro y hy
            rcases List.mem_append.1 hy with hy | hy
            · exact hys y hy
            · exact lt_right_of_lt ho hk y hy
          · have hstep := rebalance_left_repaired (e := e) (d := cmp n e) hfit
              hrep.wellBalanced hbr hrep.height (hrep.unitChange (Or.inr (Or.inl rfl))) hlt
              hrep.grown
            rw [hrep.inorder] at hstep
            simpa using hrep.trans hstep
      · have hgt : 0 < cmp n e := by omega
        have hk : key e < key n := hcmp.gt_of_not h0 hlt
        simp only [hlt, if_false]
        rcases ihr hbr hor with ⟨e', he', hke, hres⟩ | ⟨hfind, xs, ys, hr, hxs, hys, hrep⟩
        · refine Or.inl ⟨e', by simp [mem_def, mem_def.1 he'], hke, ?_⟩
          simp [hres]
        · rw [rebalance_of_find hfind]
          refine Or.inr ⟨rfl, l.inorder ++ e :: xs, ys, by simp [hr], ?_, hys, ?_⟩
          · intro x hx
            rcases List.mem_append.1 hx with hx | hx
            · exact left_lt_of_lt ho hk x hx
            · rcases List.mem_cons.1 hx with rfl | hx
              · exact hk
              · exact hxs x hx
          · have hstep := rebalance_right_repaired (e := e) (d := cmp n e) hfit
              hbl hrep.wellBalanced hrep.height (hrep.unitChange (Or.inr (Or.inl rfl))) hgt
              hrep.grown
            rw [hrep.inorder] at hstep
            simpa using hrep.trans hstep

/-- The right-most node of a non-empty subtree is unlinked from it. -/
theorem findRightMostLeaf_spec {t : Tree α} (hne : t ≠ .nil) (hb : WellBalanced t) :
    ∃ t' leaf hc xs, findRightMostLeaf t = some (t', leaf, hc) ∧
      t.inorder = xs ++ [leaf] ∧ Repaired xs t.height (-1) (t', hc) := by
  induction t with
  | nil => exact absurd rfl hne
  | node l b e r _ ihr =>
    obtain ⟨hfit, hbl, hbr⟩ := wellBalanced_node.1 hb
    cases hr : r with
    | nil =>
      subst hr
      refine ⟨l, e, -1, l.inorder, by simp [findRightMostLeaf], by simp, hbl, rfl, ?_,
        Or.inr rfl, by simp⟩
      -- without a right child the left one has height at most one
      cases b <;> simp_all
    | node rl rb re rr =>
      have hrne : r ≠ .nil := by simp [hr]
      obtain ⟨r', leaf, hc, xs, hfind, hxs, hrep⟩ := ihr hrne hbr
      rw [← hr]
      refine ⟨(rebalance (.node l b e r') 1 hc).1, leaf, (rebalance (.node l b e r') 1 hc).2,
        l.inorder ++ e :: xs, by simp [findRightMostLeaf, hfind], by simp [hxs], ?_⟩
      have hstep := rebalance_right_repaired (e := e) (d := 1) hfit hbl hrep.wellBalanced
        hrep.height (hrep.unitChange (Or.inr (Or.inr rfl))) one_pos hrep.grown
      rw [hrep.inorder] at hstep
      exact hrep.trans hstep

/-- How `deleteNode` ends: no node has the key and nothing is returned, or the
node with the key is taken out of the traversal and left without children. -/
def DeleteSpec (key : α → κ) (t : Tree α) (n : α) (res : Option (DeleteResult α)) : Prop :=
  ((∀ e ∈ t, key e ≠ key n) ∧ res = none) ∨
  ∃ xs e ys t' hc, t.inorder = xs ++ e :: ys ∧ key e = key n ∧
    res = some ⟨t', .node .nil .balanced e .nil, hc⟩ ∧
    Repaired (xs ++ ys) t.height (-1) (t', hc)

omit [LinearOrder κ] in
/-- Unlinking the root of a subtree. -/
theorem unlinkNode_spec {n : α} {l r : Tree α} {b : Balance} {e : α}
    (hk : key e = key n) (hb : WellBalanced (.node l b e r)) :
    DeleteSpec key (.node l b e r) n (unlinkNode l b e r) := by
  obtain ⟨hfit, hbl, hbr⟩ := wellBalanced_node.1 hb
  refine Or.inr ?_
  cases l with
  | nil =>
    refine ⟨[], e, r.inorder, r, -1, by simp, hk, by simp [unlinkNode, setBalance], hbr,
      by simp, ?_, Or.inr rfl, by simp⟩
    cases b <;> simp_all
  | node ll lb le lr =>
    cases r with
    | nil =>
      refine ⟨(BinTree.node ll lb le lr).inorder, e, [], .node ll lb le lr, -1, by simp, hk,
        by simp [unlinkNode, setBalance], hbl, by simp, ?_, Or.inr rfl, by simp⟩
      cases b <;> simp_all
    | node rl rb re rr =>
      -- the predecessor takes the place and the balance of the deleted node
      obtain ⟨l', leaf, hc, xs, hfind, hxs, hrep⟩ := findRightMostLeaf_spec (by simp) hbl
      have hstep := rebalance_left_repaired (e := leaf) (d := -1) hfit hrep.wellBalanced
        hbr hrep.height (hrep.unitChange (Or.inr (Or.inr rfl))) (by norm_num) hrep.grown
      rw [hrep.inorder] at hstep
      refine ⟨xs ++ [leaf], e, (BinTree.node rl rb re rr).inorder, _, _, ?_, hk,
        by simp only [unlinkNode, hfind, Option.map_some]; rfl, ?_⟩
      · rw [inorder_node, hxs]
      · simpa using hrep.trans hstep

theorem deleteNode_spec {cmp : α → α → ℤ} (hcmp : Decides cmp key key) (n : α)
    {t : Tree α} (hb : WellBalanced t) (ho : t.Ordered key) :
    DeleteSpec key t n (deleteNode cmp n t) := by
  induction t with
  | nil => exact Or.inl ⟨by simp [mem_def], rfl⟩
  | node l b e r ihl ihr =>
    obtain ⟨hol, hor, hle, her⟩ := ordered_node.1 ho
    obtain ⟨hfit, hbl, hbr⟩ := wellBalanced_node.1 hb
    by_cases h0 : cmp n e = 0
    · rw [deleteNode]
      simp only [h0, if_true]
      exact unlinkNode_spec ((hcmp.eq_iff n e).1 h0).symm hb
    · rw [deleteNode]
      simp only [h0, if_false]
      by_cases hlt : cmp n e < 0
      · have hk : key n < key e := (hcmp.lt_iff n e).1 hlt
        simp only [hlt, if_true]
        rcases ihl hbl hol with ⟨hnone, hres⟩ | ⟨xs, e', ys, l', hc, hl, hke, hres, hrep⟩
        · refine Or.inl ⟨fun x hx => ?_, by simp [hres]⟩
          rw [mem_def, inorder_node] at hx
          rcases List.mem_append.1 hx with hx | hx
          · exact hnone x hx
          · exact (lt_right_of_lt ho hk x hx).ne'
        · have hstep := rebalance_left_repaired (e := e) (d := cmp n e) hfit
            hrep.wellBalanced hbr hrep.height (hrep.unitChange (Or.inr (Or.inr rfl))) hlt
            hrep.grown
          rw [hrep.inorder] at hstep
          refine Or.inr ⟨xs, e', ys ++ e :: r.inorder, _, _, by simp [hl], hke,
            by simp only [hres, Option.map_some]; rfl, ?_⟩
          simpa using hrep.trans hstep
      · have hgt : 0 < cmp n e := by omega
        have hk : key e < key n := hcmp.gt_of_not h0 hlt
        simp only [hlt, if_false]
        rcases ihr hbr hor with ⟨hnone, hres⟩ | ⟨xs, e', ys, r', hc, hr, hke, hres, hrep⟩
        · refine Or.inl ⟨fun x hx => ?_, by simp [hres]⟩
          rw [mem_def, inorder_node] at hx
          rcases List.mem_append.1 hx with hx | hx
          · exact (left_lt_of_lt ho hk x hx).ne
          · rcases List.mem_cons.1 hx with rfl | hx
            · exact hk.ne
            · exact hnone x hx
        · have hstep := rebalance_right_repaired (e := e) (d := cmp n e) hfit hbl
            hrep.wellBalanced hrep.height (hrep.unitChange (Or.inr (Or.inr rfl))) hgt
            hrep.grown
          rw [hrep.inorder] at hstep
          refine Or.inr ⟨l.inorder ++ e :: xs, e', ys, _, _, by simp [hr], hke,
            by simp only [hres, Option.map_some]; rfl, ?_⟩
          simpa using hrep.trans hstep

/-- In an ordered tree the walk of `findNode` ends at the node with the key sought. -/
theorem findNode_eq_some_iff {cmp : σ → α → ℤ} {skey : σ → κ} (hcmp : Decides cmp skey key)
    (s : σ) {t : Tree α} (ho : t.Ordered key) (e : α) :
    findNode cmp s t = some e ↔ e ∈ t ∧ key e = skey s := by
  induction t with
  | nil => simp [findNode, mem_def]
  | node l b x r ihl ihr =>
    obtain ⟨hol, hor, hle, her⟩ := ordered_node.1 ho
    simp only [findNode, mem_def, inorder_node, List.mem_append, List.mem_cons]
    by_cases h0 : cmp s x = 0
    · have hk : skey s = key x := (hcmp.eq_iff s x).1 h0
      simp only [h0, if_true, Option.some.injEq]
      constructor
      · rintro rfl
        exact ⟨Or.inr (Or.inl rfl), hk.symm⟩
      · rintro ⟨he | rfl | he, hke⟩
        · exact absurd (hke.trans hk) (hle e he).ne
        · rfl
        · exact absurd (hke.trans hk) (her e he).ne'
    · simp only [h0, if_false]
      by_cases hlt : cmp s x < 0
      · have hk : skey s < key x := (hcmp.lt_iff s x).1 hlt
        simp only [hlt, if_true, ihl hol, mem_def]
        constructor
        · rintro ⟨he, hke⟩
          exact ⟨Or.inl he, hke⟩
        · rintro ⟨he | he, hke⟩
          · exact ⟨he, hke⟩
          · exact absurd hke (lt_right_of_lt ho hk e (List.mem_cons.2 he)).ne'
      · have hk : key x < skey s := hcmp.gt_of_not h0 hlt
        simp only [hlt, if_false, ihr hor, mem_def]
        constructor
        · rintro ⟨he, hke⟩
          exact ⟨Or.inr (Or.inr he), hke⟩
        · rintro ⟨he | rfl | he, hke⟩
          · exact absurd hke (left_lt_of_lt ho hk e he).ne
          · exact absurd hke hk.ne
          · exact ⟨he, hke⟩

/-- A call that changes the tree. -/
inductive Call (α : Type*) where
  | insert (nodeToInsert : α)
  | delete (nodeToDelete : α)

/-- The tree after one call. -/
def step [DecidableEq α] (cmp : α → α → ℤ) (t : Tree α) : Call α → Tree α
  | .insert n => (avlInsert cmp t n).1
  | .delete n => (avlDelete cmp t n).1

/-- The tree after a sequence of calls, from the empty tree. -/
def build [DecidableEq α] (cmp : α → α → ℤ) (calls : List (Call α)) : Tree α :=
  calls.foldl (step cmp) .nil

/-- The set the tree stands for, as a partial map from keys to nodes: an insertion
is ignored when its key is taken, a deletion frees the key. -/
def stepSet (key : α → κ) (s : κ → Option α) : Call α → κ → Option α
  | .insert n => if s (key n) = none then Function.update s (key n) (some n) else s
  | .delete n => Function.update s (key n) none

/-- The set after a sequence of calls. -/
def buildSet (key : α → κ) (calls : List (Call α)) : κ → Option α :=
  calls.foldl (stepSet key) fun _ => none

/-- An ordered and well balanced tree holding exactly the nodes of a set. -/
structure Represents (key : α → κ) (t : Tree α) (s : κ → Option α) : Prop where
  ordered : t.Ordered key
  wellBalanced : WellBalanced t
  mem_iff : ∀ k e, s k = some e ↔ e ∈ t ∧ key e = k

/-- `avl_insert` of a present key changes nothing and returns the present node. -/
theorem avlInsert_of_mem [DecidableEq α] {cmp : α → α → ℤ} (hcmp : Decides cmp key key)
    {t : Tree α} (hb : WellBalanced t) (ho : t.Ordered key) {n e : α} (he : e ∈ t)
    (hk : key e = key n) : avlInsert cmp t n = (t, e) := by
  rcases insertNode_spec hcmp n hb ho with ⟨e', he', hk', hres⟩ | ⟨-, xs, ys, hin, hxs, hys, -⟩
  · have heq : e' = e := ho.eq_of_key_eq he' he (hk'.trans hk.symm)
    simp [avlInsert, hres, heq]
  · rw [mem_def, hin, List.mem_append] at he
    rcases he with he | he
    · exact absurd hk (hxs e he).ne
    · exact absurd hk (hys e he).ne'

/-- `avl_insert` of a new key adds exactly the given node. -/
theorem avlInsert_of_not_mem [DecidableEq α] {cmp : α → α → ℤ} (hcmp : Decides cmp key key)
    {t : Tree α} (hb : WellBalanced t) (ho : t.Ordered key) {n : α}
    (hn : ∀ e ∈ t, key e ≠ key n) :
    (avlInsert cmp t n).2 = n ∧ (avlInsert cmp t n).1.Ordered key ∧
      WellBalanced (avlInsert cmp t n).1 ∧
      ∀ e, e ∈ (avlInsert cmp t n).1 ↔ e = n ∨ e ∈ t := by
  rcases insertNode_spec hcmp n hb ho with ⟨e, he, hk, -⟩ | ⟨hfind, xs, ys, hin, hxs, hys, hrep⟩
  · exact absurd hk (hn e he)
  · refine ⟨hfind, ho.insert_split hin hrep.inorder hxs hys, hrep.wellBalanced, fun e => ?_⟩
    rw [mem_def, mem_def, hin]
    simp only [avlInsert, hrep.inorder, List.mem_append, List.mem_cons]
    tauto

/-- `avl_delete` of an absent key changes nothing and returns no node. -/
theorem avlDelete_of_not_mem {cmp : α → α → ℤ} (hcmp : Decides cmp key key)
    {t : Tree α} (hb : WellBalanced t) (ho : t.Ordered key) {n : α}
    (hn : ∀ e ∈ t, key e ≠ key n) : avlDelete cmp t n = (t, none) := by
  rcases deleteNode_spec hcmp n hb ho with ⟨-, hres⟩ | ⟨xs, e, ys, t', hc, hin, hk, -, -⟩
  · simp [avlDelete, hres]
  · exact absurd hk (hn e (by simp [mem_def, hin]))

/-- `avl_delete` of a present key removes exactly the node with that key and
returns it without children and balanced. -/
theorem avlDelete_of_mem {cmp : α → α → ℤ} (hcmp : Decides cmp key key)
    {t : Tree α} (hb : WellBalanced t) (ho : t.Ordered key) {n e : α} (he : e ∈ t)
    (hk : key e = key n) :
    (avlDelete cmp t n).2 = some (.node .nil .balanced e .nil) ∧
      (avlDelete cmp t n).1.Ordered key ∧ WellBalanced (avlDelete cmp t n).1 ∧
      ∀ x, x ∈ (avlDelete cmp t n).1 ↔ x ∈ t ∧ x ≠ e := by
  rcases deleteNode_spec hcmp n hb ho with ⟨hnone, -⟩ | ⟨xs, e', ys, t', hc, hin, hk', hres, hrep⟩
  · exact absurd hk (hnone e he)
  · have heq : e' = e := ho.eq_of_key_eq (by simp [mem_def, hin]) he (hk'.trans hk.symm)
    subst heq
    simp only [avlDelete, hres]
    refine ⟨trivial, ho.remove_split hin hrep.inorder, hrep.wellBalanced, fun x => ?_⟩
    have hne : e' ∉ xs ∧ e' ∉ ys := by
      rw [BinTree.Ordered, hin, List.pairwise_append, List.pairwise_cons] at ho
      exact ⟨fun hx => lt_irrefl _ (ho.2.2 e' hx e' (by simp)),
        fun hy => lt_irrefl _ (ho.2.1.1 e' hy)⟩
    rw [mem_def, mem_def, hrep.inorder, hin]
    simp only [List.mem_append, List.mem_cons]
    constructor
    · rintro (hx | hx)
      · exact ⟨Or.inl hx, fun h => hne.1 (h ▸ hx)⟩
      · exact ⟨Or.inr (Or.inr hx), fun h => hne.2 (h ▸ hx)⟩
    · rintro ⟨hx | hx | hx, hxe⟩
      · exact Or.inl hx
      · exact absurd hx hxe
      · exact Or.inr hx

/-- One call takes a tree for a set to a tree for the next set. -/
theorem Represents.step [DecidableEq α] {cmp : α → α → ℤ} (hcmp : Decides cmp key key)
    {t : Tree α} {s : κ → Option α} (h : Represents key t s) (c : Call α) :
    Represents key (step cmp t c) (stepSet key s c) := by
  have hnone : ∀ k, s k = none ↔ ∀ e ∈ t, key e ≠ k := by
    intro k
    rw [Option.eq_none_iff_forall_ne_some]
    exact ⟨fun hs e he hk => hs e ((h.mem_iff k e).2 ⟨he, hk⟩),
      fun hs e he => hs e ((h.mem_iff k e).1 he).1 ((h.mem_iff k e).1 he).2⟩
  cases c with
  | insert n =>
    by_cases hn : s (key n) = none
    · obtain ⟨-, ho, hb, hmem⟩ :=
        avlInsert_of_not_mem hcmp h.wellBalanced h.ordered ((hnone _).1 hn)
      refine ⟨ho, hb, fun k e => ?_⟩
      simp only [AVL.step, stepSet, hn, if_true, hmem]
      by_cases hk : k = key n
      · subst hk
        rw [Function.update_self, Option.some.injEq]
        constructor
        · rintro rfl
          exact ⟨Or.inl rfl, rfl⟩
        · rintro ⟨rfl | he, hke⟩
          · rfl
          · exact absurd hke ((hnone _).1 hn e he)
      · rw [Function.update_of_ne hk, h.mem_iff]
        constructor
        · rintro ⟨he, hke⟩
          exact ⟨Or.inr he, hke⟩
        · rintro ⟨rfl | he, hke⟩
          · exact absurd hke.symm hk
          · exact ⟨he, hke⟩
    · obtain ⟨e, he⟩ := Option.ne_none_iff_exists'.1 hn
      obtain ⟨hmem, hk⟩ := (h.mem_iff _ _).1 he
      simpa only [AVL.step, stepSet, hn, if_false,
        avlInsert_of_mem hcmp h.wellBalanced h.ordered hmem hk] using h
  | delete n =>
    by_cases hn : s (key n) = none
    · have hsame : Function.update s (key n) none = s := by
        rw [← hn, Function.update_eq_self]
      simpa only [AVL.step, stepSet, hsame,
        avlDelete_of_not_mem hcmp h.wellBalanced h.ordered ((hnone _).1 hn)] using h
    · obtain ⟨e, he⟩ := Option.ne_none_iff_exists'.1 hn
      obtain ⟨hmem, hk⟩ := (h.mem_iff _ _).1 he
      obtain ⟨-, ho, hb, hmem'⟩ := avlDelete_of_mem hcmp h.wellBalanced h.ordered hmem hk
      refine ⟨ho, hb, fun k x => ?_⟩
      simp only [AVL.step, stepSet, hmem']
      by_cases hkn : k = key n
      · subst hkn
        rw [Function.update_self]
        constructor
        · simp
        · rintro ⟨⟨hx, hxe⟩, hkx⟩
          exact absurd (h.ordered.eq_of_key_eq hx hmem (hkx.trans hk.symm)) hxe
      · rw [Function.update_of_ne hkn, h.mem_iff]
        constructor
        · rintro ⟨hx, hkx⟩
          exact ⟨⟨hx, fun hxe => hkn (by rw [← hkx, hxe, hk])⟩, hkx⟩
        · rintro ⟨⟨hx, -⟩, hkx⟩
          exact ⟨hx, hkx⟩

/-- Every sequence of calls builds a tree for the set of that sequence. -/
theorem represents_build [DecidableEq α] {cmp : α → α → ℤ} (hcmp : Decides cmp key key)
    (calls : List (Call α)) : Represents key (build cmp calls) (buildSet key calls) := by
  induction calls using List.reverseRecOn with
  | nil => exact ⟨List.Pairwise.nil, wellBalanced_nil, by simp [build, buildSet, mem_def]⟩
  | append_singleton calls c ih =>
    simp only [build, buildSet, List.foldl_append, List.foldl_cons, List.foldl_nil]
    exact ih.step hcmp c

/-- The contract of the AVL tree: after every sequence of insertions and deletions
the tree is ordered, every stored balance is right, it holds exactly the nodes
inserted and not deleted since, and the next insertion, deletion or search does
to it what the set operation does. -/
theorem avl_ordered_set [DecidableEq α] {cmp : α → α → ℤ} {search : σ → α → ℤ}
    {skey : σ → κ} (hcmp : Decides cmp key key) (hsearch : Decides search skey key)
    (calls : List (Call α)) :
    Represents key (build cmp calls) (buildSet key calls) ∧
    (∀ n, (∀ e ∈ build cmp calls, key e = key n →
        avlInsert cmp (build cmp calls) n = (build cmp calls, e)) ∧
      ((∀ e ∈ build cmp calls, key e ≠ key n) →
        (avlInsert cmp (build cmp calls) n).2 = n ∧
        ∀ e, e ∈ (avlInsert cmp (build cmp calls) n).1 ↔ e = n ∨ e ∈ build cmp calls)) ∧
    (∀ n, (∀ e ∈ build cmp calls, key e = key n →
        (avlDelete cmp (build cmp calls) n).2 = some (.node .nil .balanced e .nil) ∧
        ∀ x, x ∈ (avlDelete cmp (build cmp calls) n).1 ↔ x ∈ build cmp calls ∧ x ≠ e) ∧
      ((∀ e ∈ build cmp calls, key e ≠ key n) →
        avlDelete cmp (build cmp calls) n = (build cmp calls, none))) ∧
    ∀ s e, avlSearch search (build cmp calls) s = some e ↔
      e ∈ build cmp calls ∧ key e = skey s := by
  have h := represents_build hcmp calls
  refine ⟨h, fun n => ⟨fun e he hk => ?_, fun hn => ?_⟩, fun n => ⟨fun e he hk => ?_, fun hn => ?_⟩,
    fun s e => findNode_eq_some_iff hsearch s h.ordered e⟩
  · exact avlInsert_of_mem hcmp h.wellBalanced h.ordered he hk
  · obtain ⟨hfind, -, -, hmem⟩ := avlInsert_of_not_mem hcmp h.wellBalanced h.ordered hn
    exact ⟨hfind, hmem⟩
  · obtain ⟨hres, -, -, hmem⟩ := avlDelete_of_mem hcmp h.wellBalanced h.ordered he hk
    exact ⟨hres, hmem⟩
  · exact avlDelete_of_not_mem hcmp h.wellBalanced h.ordered hn

theorem avl_ordered_set_four_calls :
    (build (fun a b : ℤ => a - b) [.insert 2, .insert 1, .insert 3, .delete 2]).inorder = [1, 3] ∧
    Represents id (build (fun a b : ℤ => a - b) [.insert 2, .insert 1, .insert 3, .delete 2])
      (buildSet id [.insert 2, .insert 1, .insert 3, .delete 2]) := by
  have hcmp : Decides (fun a b : ℤ => a - b) id id :=
    ⟨fun s a => by simp, fun s a => by simp [sub_eq_zero]⟩
  exact ⟨by decide, (avl_ordered_set hcmp hcmp _).1⟩

end OMR.Util.AVL
