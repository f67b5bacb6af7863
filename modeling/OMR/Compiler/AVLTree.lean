import Mathlib.Data.Finset.Insert
import Mathlib.Tactic
import OMR.Lib.BinaryTree
import OMR.Lib.Runs

/-!
# The AVL tree of the compiler

The functions of `TR_AVLTreeHandler` on trees whose nodes store a balance and a parent. A
function that the source calls with a reference to a slot returns the new content of the slot.
`none` stands for a NULL pointer that is followed.
-/

namespace OMR.Compiler.AVLTree

open OMR.Lib

/-- The key of a `TR_AVLNode` and the key of the node that `_parent` points to. -/
structure Entry (K : Type*) where
  key : K
  parent : Option K
deriving DecidableEq

/-- A slot; the tag of a node is `_balance`. -/
abbrev Tree (K : Type*) := BinTree ℤ (Entry K)

variable {K : Type*}

/-- `balance()`, which returns a `bool`. -/
def balance (stored : ℤ) : ℤ := if stored = 0 then 0 else 1

/-- `setParent`, if there is a node. -/
def setParent (parent : Option K) : Tree K → Tree K
  | .nil => .nil
  | .node l b e r => .node l b { e with parent := parent } r

/-- `balanceLeft`: the slot afterwards and the value returned. -/
def balanceLeft : Tree K → Option (Tree K × ℤ)
  | .node (.node l₁ b₁ p₁ r₁) _ node r =>
    if balance b₁ ≤ 0 then
      let nodeBalance := -(balance b₁ + 1)
      let p₁Balance := -balance nodeBalance
      some (.node l₁ p₁Balance { p₁ with parent := node.parent }
        (.node (setParent node.key r₁) nodeBalance { node with parent := p₁.key } r),
        balance p₁Balance)
    else match r₁ with
      | .node l₂ b₂ p₂ r₂ =>
        some (.node
          (.node l₁ (if balance b₂ ≤ 0 then 0 else -1) { p₁ with parent := p₂.key }
            (setParent p₁.key l₂))
          0 { p₂ with parent := node.parent }
          (.node (setParent node.key r₂) (if balance b₂ ≥ 0 then 0 else 1)
            { node with parent := p₂.key } r), 0)
      | .nil => none
  | _ => none

/-- `balanceRight`. -/
def balanceRight : Tree K → Option (Tree K × ℤ)
  | .node l _ node (.node l₁ b₁ p₁ r₁) =>
    if balance b₁ ≥ 0 then
      let nodeBalance := 1 - balance b₁
      let p₁Balance := -balance nodeBalance
      some (.node
        (.node l nodeBalance { node with parent := p₁.key } (setParent node.key l₁))
        p₁Balance { p₁ with parent := node.parent } r₁,
        balance p₁Balance)
    else match l₁ with
      | .node l₂ b₂ p₂ r₂ =>
        some (.node
          (.node l (if balance b₂ ≤ 0 then 0 else -1) { node with parent := p₂.key }
            (setParent node.key l₂))
          0 { p₂ with parent := node.parent }
          (.node (setParent p₁.key r₂) (if balance b₂ ≥ 0 then 0 else 1)
            { p₁ with parent := p₂.key } r₁), 0)
      | .nil => none
  | _ => none

/-- A slot, `heightChanged`, and whether the node is new or was found. -/
abbrev Outcome (K : Type*) := Tree K × ℤ × Bool

/-- `findOrCreate` at a node, after its left slot. -/
def createdLeft (b : ℤ) (node : Entry K) (r : Tree K) : Outcome K → Option (Outcome K)
  | (l, heightChanged, treeChanged) =>
    if heightChanged ≠ 0 then
      let heightChanged := balance b - 1
      if heightChanged < -1 then
        (balanceLeft (.node l heightChanged node r)).map fun (t, h) => (t, h, treeChanged)
      else some (.node l heightChanged node r, heightChanged, treeChanged)
    else some (.node l b node r, heightChanged, treeChanged)

/-- `findOrCreate` at a node, after its right slot. -/
def createdRight (l : Tree K) (b : ℤ) (node : Entry K) : Outcome K → Option (Outcome K)
  | (r, heightChanged, treeChanged) =>
    if heightChanged ≠ 0 then
      let heightChanged := balance b + 1
      if heightChanged > 1 then
        (balanceRight (.node l heightChanged node r)).map fun (t, h) => (t, h, treeChanged)
      else some (.node l heightChanged node r, heightChanged, treeChanged)
    else some (.node l b node r, heightChanged, treeChanged)

/-- `swapRightmost` below the left slot of the node `swap`: that node, with the balance of the
rightmost one, stands where this stood. -/
def swapRightmost (swap : Entry K) : Tree K → Option (Tree K × Entry K)
  | .nil => none
  | .node l b node .nil =>
    some (.node (setParent swap.key l) (balance b) { swap with parent := node.parent } .nil, node)
  | .node l b node r => (swapRightmost swap r).map fun (r, rightmost) =>
    (.node l b node r, rightmost)

/-- `remove` at a node, after its left slot. -/
def removedLeft (b : ℤ) (node : Entry K) (r : Tree K) : Outcome K → Option (Outcome K)
  | (l, heightChanged, found) =>
    if heightChanged ≠ 0 then
      let heightChanged := balance b
      if heightChanged > 0 then
        (balanceRight (.node l (heightChanged + 1) node r)).map fun (t, h) =>
          (t, if h = 0 then 1 else 0, found)
      else some (.node l (heightChanged + 1) node r, heightChanged, found)
    else some (.node l b node r, heightChanged, found)

/-- `remove` at a node, after its right slot. -/
def removedRight (l : Tree K) (b : ℤ) (node : Entry K) : Outcome K → Option (Outcome K)
  | (r, heightChanged, found) =>
    if heightChanged ≠ 0 then
      let heightChanged := balance b
      if heightChanged < 0 then
        (balanceLeft (.node l (heightChanged - 1) node r)).map fun (t, h) =>
          (t, if h = 0 then 1 else 0, found)
      else some (.node l (heightChanged - 1) node r, heightChanged, found)
    else some (.node l b node r, heightChanged, found)

/-- `copySubtree`, where `copy` makes a node with the same key. -/
def copySubtree : Tree K → Tree K
  | .nil => .nil
  | .node l b node r =>
    .node (setParent node.key (copySubtree l)) (balance b) ⟨node.key, none⟩
      (setParent node.key (copySubtree r))

/-- `verify` of a node; a slot without a node is not looked at. -/
def verify [DecidableEq K] (parent : Option K) : Tree K → Bool
  | .nil => true
  | .node l b node r =>
    if node.parent ≠ parent then false
    else if l = .nil then
      if r = .nil then true
      else if r.height ≠ 1 ∨ b ≠ 1 then false
      else verify node.key r
    else if r = .nil then
      if l.height ≠ 1 ∨ b ≠ -1 then false
      else verify node.key l
    else if (r.height - l.height : ℤ) ≠ b then false
    else verify node.key l && verify node.key r

variable [LinearOrder K]

/-- `findOrCreate` on a slot of the node `parent`. The new node is put into an empty slot, as
the source does before it would call itself. -/
def createFrom (key : K) (parent : Option K) : Tree K → Option (Outcome K)
  | .nil => some (.node .nil 0 ⟨key, parent⟩ .nil, 1, true)
  | .node l b node r =>
    if key < node.key then (createFrom key node.key l).bind (createdLeft b node r)
    else if key > node.key then (createFrom key node.key r).bind (createdRight l b node)
    else some (.node l b node r, 0, false)

/-- `findOrCreate` and `insert`, which differ in where the new node comes from. -/
def findOrCreate (key : K) (root : Tree K) : Option (Tree K × Bool) :=
  (createFrom key none root).map fun (t, _, treeChanged) => (t, treeChanged)

/-- `remove` on a slot, at most `fuel` levels down. -/
def removeFrom (key : K) : ℕ → Tree K → Option (Outcome K)
  | 0, _ => none
  | _ + 1, .nil => some (.nil, 0, false)
  | fuel + 1, .node l b node r =>
    if key = node.key then
      if r = .nil then some (setParent node.parent l, 1, true)
      else if l = .nil then some (setParent node.parent r, 1, true)
      else
        -- The rightmost node of the left subtree takes this place, with this balance.
        (swapRightmost node l).bind fun (l, rightmost) =>
          let l := setParent rightmost.key l
          (removeFrom key fuel l).bind (removedLeft (balance b)
            { rightmost with parent := node.parent } (setParent rightmost.key r))
    else if key < node.key then (removeFrom key fuel l).bind (removedLeft b node r)
    else (removeFrom key fuel r).bind (removedRight l b node)

/-- `remove`, which goes down one level each time. -/
def remove (key : K) (root : Tree K) : Option (Tree K × Bool) :=
  (removeFrom key (root.height + 1) root).map fun (t, _, found) => (t, found)

end OMR.Compiler.AVLTree
