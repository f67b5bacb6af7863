import Mathlib.Data.List.Basic
import Mathlib.Order.Basic

/-!
# Binary trees whose nodes carry a balance tag

A binary tree over an arbitrary entry type in which every node also stores a
tag. `BinTree.Tagged` says that every stored tag describes the true heights of
the two subtrees below it, and `BinTree.Ordered` that the in-order traversal is
strictly increasing in a key. Searching, inserting and removing at the level of
the in-order traversal are the splits `xs ++ e :: ys` of these lists.
-/

namespace OMR.Lib

/-- A binary tree with a tag of type `τ` and an entry of type `α` in every node. -/
inductive BinTree (τ α : Type*) where
  | nil
  | node (left : BinTree τ α) (tag : τ) (entry : α) (right : BinTree τ α)
deriving DecidableEq, Repr

namespace BinTree

variable {τ α κ : Type*}

/-- The entries from left to right. -/
def inorder : BinTree τ α → List α
  | nil => []
  | node l _ e r => l.inorder ++ e :: r.inorder

/-- The number of nodes on a longest path from the root. -/
def height : BinTree τ α → ℕ
  | nil => 0
  | node l _ _ r => max l.height r.height + 1

/-- Every stored tag is related by `ok` to the heights of the two subtrees. -/
def Tagged (ok : τ → ℕ → ℕ → Prop) : BinTree τ α → Prop
  | nil => True
  | node l b _ r => ok b l.height r.height ∧ l.Tagged ok ∧ r.Tagged ok

/-- The in-order traversal is strictly increasing in `key`. -/
def Ordered [LT κ] (key : α → κ) (t : BinTree τ α) : Prop :=
  t.inorder.Pairwise fun a b => key a < key b

instance : Membership α (BinTree τ α) := ⟨fun t a => a ∈ t.inorder⟩

theorem mem_def {t : BinTree τ α} {a : α} : a ∈ t ↔ a ∈ t.inorder := Iff.rfl

@[simp] theorem inorder_nil : (nil : BinTree τ α).inorder = [] := rfl

@[simp] theorem inorder_node (l : BinTree τ α) (b : τ) (e : α) (r : BinTree τ α) :
    (node l b e r).inorder = l.inorder ++ e :: r.inorder := rfl

@[simp] theorem height_nil : (nil : BinTree τ α).height = 0 := rfl

@[simp] theorem height_node (l : BinTree τ α) (b : τ) (e : α) (r : BinTree τ α) :
    (node l b e r).height = max l.height r.height + 1 := rfl

theorem height_eq_zero {t : BinTree τ α} : t.height = 0 ↔ t = nil := by
  cases t <;> simp

section Ordered

variable [Preorder κ] {key : α → κ} {l r : BinTree τ α} {b : τ} {e : α}

/-- A node is ordered when its subtrees are and its entry separates them. -/
theorem ordered_node :
    (node l b e r).Ordered key ↔
      l.Ordered key ∧ r.Ordered key ∧ (∀ x ∈ l, key x < key e) ∧
        ∀ x ∈ r, key e < key x := by
  simp only [Ordered, inorder_node, List.pairwise_append, List.pairwise_cons, mem_def]
  constructor
  · rintro ⟨hl, ⟨her, hr⟩, hlr⟩
    exact ⟨hl, hr, fun x hx => hlr x hx e (by simp), her⟩
  · rintro ⟨hl, hr, hle, her⟩
    refine ⟨hl, ⟨her, hr⟩, fun x hx y hy => ?_⟩
    rcases List.mem_cons.1 hy with rfl | hy
    · exact hle x hx
    · exact lt_trans (hle x hx) (her y hy)

/-- Inserting an entry between the smaller and the larger ones keeps the order. -/
theorem Ordered.insert_split {s t : BinTree τ α} {xs ys : List α} {n : α}
    (h : s.Ordered key) (hs : s.inorder = xs ++ ys) (ht : t.inorder = xs ++ n :: ys)
    (hxs : ∀ x ∈ xs, key x < key n) (hys : ∀ y ∈ ys, key n < key y) : t.Ordered key := by
  rw [Ordered, hs, List.pairwise_append] at h
  rw [Ordered, ht, List.pairwise_append, List.pairwise_cons]
  refine ⟨h.1, ⟨hys, h.2.1⟩, fun x hx y hy => ?_⟩
  rcases List.mem_cons.1 hy with rfl | hy
  · exact hxs x hx
  · exact h.2.2 x hx y hy

/-- Taking an entry out keeps the order. -/
theorem Ordered.remove_split {s t : BinTree τ α} {xs ys : List α} {n : α}
    (h : s.Ordered key) (hs : s.inorder = xs ++ n :: ys) (ht : t.inorder = xs ++ ys) :
    t.Ordered key := by
  rw [Ordered, hs] at h
  rw [Ordered, ht]
  exact h.sublist (List.Sublist.append_left (List.sublist_cons_self n ys) xs)

end Ordered

/-- In an ordered tree an entry is determined by its key. -/
theorem Ordered.eq_of_key_eq [Preorder κ] {key : α → κ} {t : BinTree τ α} (h : t.Ordered key)
    {a b : α} (ha : a ∈ t) (hb : b ∈ t) (hk : key a = key b) : a = b := by
  induction t with
  | nil => simp [mem_def] at ha
  | node l _ e r ihl ihr =>
    obtain ⟨hl, hr, hle, her⟩ := ordered_node.1 h
    simp only [mem_def, inorder_node, List.mem_append, List.mem_cons] at ha hb
    rcases ha with ha | rfl | ha <;> rcases hb with hb | rfl | hb
    · exact ihl hl ha hb
    · exact absurd hk (hle a ha).ne
    · exact absurd hk (lt_trans (hle a ha) (her b hb)).ne
    · exact absurd hk (hle b hb).ne'
    · rfl
    · exact absurd hk (her b hb).ne
    · exact absurd hk (lt_trans (hle b hb) (her a ha)).ne'
    · exact absurd hk (her a ha).ne'
    · exact ihr hr ha hb

end BinTree

end OMR.Lib
