import OMR.Lib.BinaryTree
import Mathlib.Data.Int.Order.Basic

/-!
# The AVL tree of `util/avl`

The model of `avlsup.c`. A tree node is a `BinTree` node: its entry stands for
the `J9AVLTreeNode` itself, its tag for the two low bits of `leftChild`, which
hold the balance. The relative pointers `J9WSRP` become the subtrees they name.
Every function that the source calls with a pointer to the field holding a
subtree returns the new content of that field here, and the in/out parameter
`heightChange` becomes an argument and a component of the result. The tracing
calls and the optional `genericActionHook` are left out.
-/

namespace OMR.Util.AVL

open OMR.Lib

/-- `AVL_BALANCED`, `AVL_LEFTHEAVY` and `AVL_RIGHTHEAVY`. -/
inductive Balance where
  | balanced
  | leftHeavy
  | rightHeavy
deriving DecidableEq, Repr

/-- A tree or subtree; the entry of a node is the node's identity. -/
abbrev Tree (α : Type*) := BinTree Balance α

variable {α σ : Type*}

/-- `AVL_GETBALANCE`, read as `balanced` where there is no node. -/
def getBalance : Tree α → Balance
  | .nil => .balanced
  | .node _ b _ _ => b

/-- `AVL_SETBALANCE`. -/
def setBalance (b : Balance) : Tree α → Tree α
  | .nil => .nil
  | .node l _ e r => .node l b e r

/-- Single rotation away from the heavy child, which is the right one for a
negative `direction`. A missing heavy child, where the source would follow a
null pointer, leaves the tree as it is. -/
def rotate (walk : Tree α) (direction heightChange : ℤ) : Tree α × ℤ :=
  if direction < 0 then
    match walk with
    | .node l _ e (.node hl hb he hr) =>
      if hb ≠ .balanced then
        (.node (.node l .balanced e hl) .balanced he hr,
          if heightChange > 0 then 0 else heightChange)
      else
        (.node (.node l .rightHeavy e hl) .leftHeavy he hr, 0)
    | walk => (walk, heightChange)
  else
    match walk with
    | .node (.node hl hb he hr) _ e r =>
      if hb ≠ .balanced then
        (.node hl .balanced he (.node hr .balanced e r),
          if heightChange > 0 then 0 else heightChange)
      else
        (.node hl .rightHeavy he (.node hr .leftHeavy e r), 0)
    | walk => (walk, heightChange)

/-- Double rotation: the inner grandchild becomes the root. -/
def doubleRotate (walk : Tree α) (direction heightChange : ℤ) : Tree α × ℤ :=
  let heightChange' := if heightChange > 0 then 0 else heightChange
  if direction < 0 then
    match walk with
    | .node l _ e (.node (.node nl nb ne nr) _ he hr) =>
      let heavyBalance := if nb = .leftHeavy then .rightHeavy else .balanced
      let walkBalance := if nb = .rightHeavy then .leftHeavy else .balanced
      (.node (.node l walkBalance e nl) .balanced ne (.node nr heavyBalance he hr),
        heightChange')
    | walk => (walk, heightChange)
  else
    match walk with
    | .node (.node hl _ he (.node nl nb ne nr)) _ e r =>
      let heavyBalance := if nb = .rightHeavy then .leftHeavy else .balanced
      let walkBalance := if nb = .leftHeavy then .rightHeavy else .balanced
      (.node (.node hl heavyBalance he nl) .balanced ne (.node nr walkBalance e r),
        heightChange')
    | walk => (walk, heightChange)

/-- Repair the balance of a node after its subtree on the side of `direction`
changed its height by `heightChange`. -/
def rebalance (walk : Tree α) (direction heightChange : ℤ) : Tree α × ℤ :=
  if heightChange = 0 then
    (walk, heightChange)
  else
    -- after shrinking, `direction` points towards the heavy side
    let direction := if heightChange < 0 then -direction else direction
    match walk with
    | .nil => (walk, heightChange)
    | .node l b e r =>
      if b = .balanced then
        (.node l (if direction < 0 then .leftHeavy else .rightHeavy) e r,
          if heightChange < 0 then 0 else heightChange)
      else if (b = .leftHeavy) = (direction < 0) then
        if direction < 0 ∧ getBalance l = .rightHeavy then
          doubleRotate walk (-direction) heightChange
        else if direction > 0 ∧ getBalance r = .leftHeavy then
          doubleRotate walk (-direction) heightChange
        else
          rotate walk (-direction) heightChange
      else
        (.node l .balanced e r, if heightChange > 0 then 0 else heightChange)

/-- What `insertNode` leaves behind: the new subtree, the node it returns and
`heightChange`. -/
structure InsertResult (α : Type*) where
  tree : Tree α
  find : α
  heightChange : ℤ

/-- Insert `node` below the field holding the given subtree. -/
def insertNode [DecidableEq α] (insertionComparator : α → α → ℤ) (node : α) :
    Tree α → InsertResult α
  | .nil => ⟨.node .nil .balanced node .nil, node, 1⟩
  | .node l b walk r =>
    let dir := insertionComparator node walk
    if dir = 0 then
      ⟨.node l b walk r, walk, 0⟩
    else
      let below := if dir < 0 then insertNode insertionComparator node l
        else insertNode insertionComparator node r
      let walkTree := if dir < 0 then .node below.tree b walk r else .node l b walk below.tree
      if below.find = node ∧ below.heightChange ≠ 0 then
        let fixed := rebalance walkTree dir below.heightChange
        ⟨fixed.1, below.find, fixed.2⟩
      else
        ⟨walkTree, below.find, below.heightChange⟩

/-- Walk down from a node by the search comparator. -/
def findNode (searchComparator : σ → α → ℤ) (search : σ) : Tree α → Option α
  | .nil => none
  | .node l _ walk r =>
    let dir := searchComparator search walk
    if dir = 0 then some walk
    else if dir < 0 then findNode searchComparator search l
    else findNode searchComparator search r

/-- Unlink the right-most node of a subtree: the new subtree, the node with the
balance it still stores and no children, and `heightChange`. -/
def findRightMostLeaf : Tree α → Option (Tree α × α × ℤ)
  | .nil => none
  | .node l b e r =>
    match findRightMostLeaf r with
    | none => some (l, e, -1)
    | some (r', find, heightChange) =>
      let fixed := rebalance (.node l b e r') 1 heightChange
      some (fixed.1, find, fixed.2)

/-- What `deleteNode` leaves behind: the new subtree, the unlinked node with the
fields it ends up with, and `heightChange`. -/
structure DeleteResult (α : Type*) where
  tree : Tree α
  removed : Tree α
  heightChange : ℤ

/-- The case of `deleteNode` in which `walk` itself compares equal: its only child,
or its predecessor, takes its place. -/
def unlinkNode (l : Tree α) (b : Balance) (walk : α) (r : Tree α) : Option (DeleteResult α) :=
  let removed := setBalance .balanced (.node .nil b walk .nil)
  match l, r with
  | .nil, r => some ⟨r, removed, -1⟩
  | l, .nil => some ⟨l, removed, -1⟩
  | l, r =>
    (findRightMostLeaf l).map fun (l', leaf, heightChange) =>
      let fixed := rebalance (.node l' b leaf r) (-1) heightChange
      ⟨fixed.1, removed, fixed.2⟩

/-- Delete the node comparing equal to `node` below the field holding the given
subtree; `none` stands for the `NULL` result, which leaves the field alone. -/
def deleteNode (insertionComparator : α → α → ℤ) (node : α) :
    Tree α → Option (DeleteResult α)
  | .nil => none
  | .node l b walk r =>
    let dir := insertionComparator node walk
    if dir = 0 then
      unlinkNode l b walk r
    else if dir < 0 then
      (deleteNode insertionComparator node l).map fun below =>
        let fixed := rebalance (.node below.tree b walk r) dir below.heightChange
        ⟨fixed.1, below.removed, fixed.2⟩
    else
      (deleteNode insertionComparator node r).map fun below =>
        let fixed := rebalance (.node l b walk below.tree) dir below.heightChange
        ⟨fixed.1, below.removed, fixed.2⟩

/-- `avl_insert`: the new root and the returned node. -/
def avlInsert [DecidableEq α] (insertionComparator : α → α → ℤ) (tree : Tree α)
    (nodeToInsert : α) : Tree α × α :=
  let result := insertNode insertionComparator nodeToInsert tree
  (result.tree, result.find)

/-- `avl_delete`: the new root and the returned node with its final fields. -/
def avlDelete (insertionComparator : α → α → ℤ) (tree : Tree α) (nodeToDelete : α) :
    Tree α × Option (Tree α) :=
  match deleteNode insertionComparator nodeToDelete tree with
  | none => (tree, none)
  | some result => (result.tree, some result.removed)

/-- `avl_search`. -/
def avlSearch (searchComparator : σ → α → ℤ) (tree : Tree α) (searchValue : σ) : Option α :=
  findNode searchComparator searchValue tree

end OMR.Util.AVL
