import Mathlib.Tactic

/-!
# Verification of hedge trees

`TR_HedgeTree::verify`. A link to a subtree leads one level down or, where it is flagged, to a
sibling on the same level. `verify` goes down only children and stops at the first node with two
subtrees, of which it compares the heights without looking at their nodes.
-/

namespace OMR.Compiler

/-- A `TR_HedgeNode` with the subtrees it points to, or `NULL`. -/
inductive HedgeNode where
  | null
  | node (address : ℕ) (key : ℤ) (parent : Option ℕ) (leftSibling rightSibling : Bool)
      (left right : HedgeNode)

namespace HedgeNode

def isNull : HedgeNode → Bool
  | null => true
  | node .. => false

/-- `_left->isLeftSibling() || _left->isRightSibling()`; `none` if a node at `NULL` is read. -/
def hasSibling : HedgeNode → Option Bool
  | null => none
  | node _ _ _ leftSibling rightSibling _ _ => some (leftSibling || rightSibling)

/-- Whether a flagged link leads to a node with a flagged link. -/
def doubleSibling (sibling : Bool) (subtree : HedgeNode) : Option Bool :=
  if sibling then subtree.hasSibling else some false

/-- The levels that a link goes down. -/
def levels (sibling : Bool) : ℕ := if sibling then 0 else 1

/-- `height`, down the left links where there are any. It is not called on `NULL`. -/
def height : HedgeNode → ℕ
  | null => 0
  | node _ _ _ leftSibling rightSibling left right =>
    if left.isNull = false then left.height + levels leftSibling
    else if right.isNull = false then right.height + levels rightSibling
    else 1

/-- `verify`: true, or false with the text of the assertion, or `none` if `NULL` is read. -/
def verify (parent : Option ℕ) : HedgeNode → Option (Except String Unit)
  | null => none
  | node address key parent' leftSibling rightSibling left right =>
    (doubleSibling leftSibling left).bind fun double =>
      if double then some (.error s!"Double sibling chain for key {key}")
      else (doubleSibling rightSibling right).bind fun double =>
        if double then some (.error s!"Double sibling chain for key {key}")
        else if parent' ≠ parent then some (.error s!"Bad parent for key {key}")
        else if left.isNull ∧ leftSibling then some (.error s!"Null left sibling for key {key}")
        else if right.isNull ∧ rightSibling then some (.error s!"Null right sibling for key {key}")
        else if left.isNull then
          if right.isNull then some (.ok ())
          else if !rightSibling then some (.error s!"Non-leaf is missing child for key {key}")
          else right.verify (some address)
        else if right.isNull then
          if !leftSibling then some (.error s!"Non-leaf is missing child for key {key}")
          else left.verify (some address)
        else if left.height + levels leftSibling ≠ right.height + levels rightSibling then
          some (.error s!"Lhs and rhs different heights for key {key}")
        else some (.ok ())

/-! ### What the nodes of a hedge tree should be -/

/-- Whether one of the links from a node leads to a sibling. -/
def flagged : HedgeNode → Bool
  | null => false
  | node _ _ _ leftSibling rightSibling _ _ => leftSibling || rightSibling

/-- The pointer to the parent is right, no link to a sibling follows another one, and the links
to siblings lead to nodes. -/
structure Linked (parent parent' : Option ℕ) (leftSibling rightSibling : Bool)
    (left right : HedgeNode) : Prop where
  parent_eq : parent' = parent
  left_single : leftSibling = true → left.flagged = false
  right_single : rightSibling = true → right.flagged = false
  left_present : leftSibling = true → left.isNull = false
  right_present : rightSibling = true → right.isNull = false

/-- A node under its parent that is as it should be. A missing subtree has the height 0. -/
structure Sound (parent parent' : Option ℕ) (leftSibling rightSibling : Bool)
    (left right : HedgeNode) : Prop
    extends Linked parent parent' leftSibling rightSibling left right where
  heights_eq : left.height + levels leftSibling = right.height + levels rightSibling

/-- Every node of a tree under a parent is as it should be. -/
def AllSound : Option ℕ → HedgeNode → Prop
  | _, null => True
  | parent, node address _ parent' leftSibling rightSibling left right =>
    Sound parent parent' leftSibling rightSibling left right ∧
      AllSound (some address) left ∧ AllSound (some address) right

/-- The tests that `verify` makes on a node: an only child has to be a sibling, and two subtrees
have to be of one height. -/
structure Tested (parent parent' : Option ℕ) (leftSibling rightSibling : Bool)
    (left right : HedgeNode) : Prop
    extends Linked parent parent' leftSibling rightSibling left right where
  only_left : left.isNull = false → right.isNull = true → leftSibling = true
  only_right : left.isNull = true → right.isNull = false → rightSibling = true
  heights_eq : left.isNull = false → right.isNull = false →
    left.height + levels leftSibling = right.height + levels rightSibling

/-- The tests on the nodes from one down the only children. -/
def WayTested : Option ℕ → HedgeNode → Prop
  | _, null => True
  | parent, node address _ parent' leftSibling rightSibling left right =>
    Tested parent parent' leftSibling rightSibling left right ∧
      (left.isNull = true → WayTested (some address) right) ∧
      (right.isNull = true → WayTested (some address) left)

/-- None of the nodes down the only children has two subtrees. -/
def Unbranched : HedgeNode → Prop
  | null => True
  | node _ _ _ _ _ left right =>
    left.isNull = true ∧ Unbranched right ∨ right.isNull = true ∧ Unbranched left

/-- The nodes below a node with two subtrees are as they should be. -/
def RestSound : HedgeNode → Prop
  | null => True
  | node address _ _ _ _ left right =>
    left.isNull = false ∧ right.isNull = false ∧
      AllSound (some address) left ∧ AllSound (some address) right

end HedgeNode

/-- `TR_HedgeTree`. -/
structure HedgeTree where
  root : HedgeNode

namespace HedgeTree

/-- `TR_HedgeTree::verify`. -/
def verify (tree : HedgeTree) : Option (Except String Unit) :=
  if tree.root.isNull then some (.ok ()) else tree.root.verify none

end HedgeTree

namespace HedgeNode

variable {parent parent' : Option ℕ} {leftSibling rightSibling : Bool} {left right n : HedgeNode}

theorem isNull_iff : n.isNull = true ↔ n = null := by
  cases n with
  | null => simp [isNull]
  | node => simp [isNull]

/-- A flagged link to a missing subtree is read at `NULL`. -/
theorem doubleSibling_eq_false_iff {sibling : Bool} :
    doubleSibling sibling n = some false ↔
      (sibling = true → n.flagged = false) ∧ (sibling = true → n.isNull = false) := by
  unfold doubleSibling
  cases sibling with
  | false => simp
  | true =>
    cases n with
    | null => simp [hasSibling, isNull]
    | node => simp [hasSibling, flagged, isNull]

theorem height_pos (h : n.isNull = false) : 0 < n.height := by
  induction n with
  | null => cases h
  | node address key parent leftSibling rightSibling left right ihl ihr =>
    rw [height]
    split_ifs with hl hr
    · exact Nat.lt_add_right _ (ihl hl)
    · exact Nat.lt_add_right _ (ihr hr)
    · exact Nat.one_pos

section Tests

variable {r : Option (Except String Unit)} {message : String}

theorem error_else_iff {p : Prop} [Decidable p] :
    (if p then some (.error message) else r) = some (.ok ()) ↔ ¬ p ∧ r = some (.ok ()) := by
  split_ifs with hp <;> simp [hp]

theorem double_bind_iff {sibling : Bool} :
    ((doubleSibling sibling n).bind fun double =>
      if double then some (.error message) else r) = some (.ok ()) ↔
      doubleSibling sibling n = some false ∧ r = some (.ok ()) := by
  cases doubleSibling sibling n with
  | none => simp
  | some double => cases double <;> simp

end Tests

/-- `verify` returns true exactly if the tests succeed on the way down the only children. -/
theorem verify_eq_ok_iff (h : n.isNull = false) :
    n.verify parent = some (.ok ()) ↔ n.WayTested parent := by
  induction n generalizing parent with
  | null => cases h
  | node address key parent' leftSibling rightSibling left right ihl ihr =>
    rw [verify, double_bind_iff, double_bind_iff, error_else_iff, error_else_iff, error_else_iff,
      doubleSibling_eq_false_iff, doubleSibling_eq_false_iff, WayTested]
    have htested : Tested parent parent' leftSibling rightSibling left right ↔
        ((leftSibling = true → left.flagged = false) ∧
          (leftSibling = true → left.isNull = false)) ∧
        ((rightSibling = true → right.flagged = false) ∧
          (rightSibling = true → right.isNull = false)) ∧ parent' = parent ∧
        (left.isNull = false → right.isNull = true → leftSibling = true) ∧
        (left.isNull = true → right.isNull = false → rightSibling = true) ∧
        (left.isNull = false → right.isNull = false →
          left.height + levels leftSibling = right.height + levels rightSibling) :=
      ⟨fun h => ⟨⟨h.left_single, h.left_present⟩, ⟨h.right_single, h.right_present⟩,
        h.parent_eq, h.only_left, h.only_right, h.heights_eq⟩,
        fun ⟨hl, hr, hp, hol, hor, hh⟩ => ⟨⟨hp, hl.1, hr.1, hl.2, hr.2⟩, hol, hor, hh⟩⟩
    rw [htested]
    cases hl : left.isNull with
    | true =>
      cases hr : right.isNull with
      | true =>
        have hleft : left.WayTested (some address) := by rw [isNull_iff.1 hl, WayTested]; trivial
        have hright : right.WayTested (some address) := by rw [isNull_iff.1 hr, WayTested]; trivial
        rw [if_pos rfl, if_pos rfl]
        grind
      | false =>
        rw [if_pos rfl, if_neg Bool.false_ne_true, error_else_iff, ihr hr]
        grind
    | false =>
      cases hr : right.isNull with
      | true =>
        rw [if_neg Bool.false_ne_true, if_pos rfl, error_else_iff, ihl hl]
        grind
      | false =>
        rw [if_neg Bool.false_ne_true, if_neg Bool.false_ne_true, error_else_iff]
        grind

/-- With two subtrees the tests say that the node is as it should be, and so do they without one. -/
theorem Tested.sound (h : Tested parent parent' leftSibling rightSibling left right)
    (heq : left.isNull = right.isNull) :
    Sound parent parent' leftSibling rightSibling left right := by
  refine ⟨h.toLinked, ?_⟩
  cases hl : left.isNull with
  | true =>
    have hr : right.isNull = true := heq ▸ hl
    have hls : leftSibling = false := by
      by_contra hne
      exact absurd (h.left_present (Bool.eq_true_of_not_eq_false hne)) (by simp [hl])
    have hrs : rightSibling = false := by
      by_contra hne
      exact absurd (h.right_present (Bool.eq_true_of_not_eq_false hne)) (by simp [hr])
    rw [isNull_iff.1 hl, isNull_iff.1 hr, hls, hrs]
  | false => exact h.heights_eq hl (heq ▸ hl)

theorem Tested.sound_iff_of_only_right
    (h : Tested parent parent' leftSibling rightSibling left right)
    (hl : left.isNull = true) (hr : right.isNull = false) :
    Sound parent parent' leftSibling rightSibling left right ↔ right.height = 1 := by
  have hrs := h.only_right hl hr
  have hls : leftSibling = false := by
    by_contra hne
    exact absurd (h.left_present (Bool.eq_true_of_not_eq_false hne)) (by simp [hl])
  obtain rfl := isNull_iff.1 hl
  subst hls hrs
  exact ⟨fun hsound => hsound.heights_eq.symm, fun hheight => ⟨h.toLinked, hheight.symm⟩⟩

theorem Tested.sound_iff_of_only_left
    (h : Tested parent parent' leftSibling rightSibling left right)
    (hl : left.isNull = false) (hr : right.isNull = true) :
    Sound parent parent' leftSibling rightSibling left right ↔ left.height = 1 := by
  have hls := h.only_left hl hr
  have hrs : rightSibling = false := by
    by_contra hne
    exact absurd (h.right_present (Bool.eq_true_of_not_eq_false hne)) (by simp [hr])
  obtain rfl := isNull_iff.1 hr
  subst hls hrs
  exact ⟨fun hsound => hsound.heights_eq, fun hheight => ⟨h.toLinked, hheight⟩⟩

/-- An only child has no sibling of its own. It has two subtrees then, or none. -/
theorem WayTested.only_child (h : n.WayTested parent) (hn : n.isNull = false)
    (hsingle : n.flagged = false) :
    n.Unbranched ∧ n.height = 1 ∧ n.AllSound parent ∨ ¬ n.Unbranched ∧ 1 < n.height := by
  cases n with
  | null => cases hn
  | node address key parent' leftSibling rightSibling left right =>
    obtain ⟨htested, -, -⟩ := h
    obtain ⟨rfl, rfl⟩ := Bool.or_eq_false_iff.1 hsingle
    cases hl : left.isNull with
    | true =>
      cases hr : right.isNull with
      | true =>
        have hsound := htested.sound (hl.trans hr.symm)
        obtain rfl := isNull_iff.1 hl
        obtain rfl := isNull_iff.1 hr
        exact .inl ⟨.inl ⟨rfl, trivial⟩, rfl, hsound, trivial, trivial⟩
      | false => exact absurd (htested.only_right hl hr) Bool.false_ne_true
    | false =>
      cases hr : right.isNull with
      | true => exact absurd (htested.only_left hl hr) Bool.false_ne_true
      | false =>
        refine .inr ⟨?_, ?_⟩
        · rintro (⟨hnull, -⟩ | ⟨hnull, -⟩)
          · exact absurd hnull (by simp [hl])
          · exact absurd hnull (by simp [hr])
        · have hpos := height_pos hl
          rw [height, if_pos hl]
          change 1 < left.height + 1
          omega

/-- The nodes on which the tests succeed are as they should be if there is no node with two
subtrees among them. If there is one, it is the root, and the nodes below it are. -/
theorem WayTested.allSound_iff (h : n.WayTested parent) :
    n.AllSound parent ↔ n.Unbranched ∨ n.RestSound := by
  cases n with
  | null => exact iff_of_true trivial (.inl trivial)
  | node address key parent' leftSibling rightSibling left right =>
    obtain ⟨htested, hright, hleft⟩ := h
    cases hl : left.isNull with
    | true =>
      cases hr : right.isNull with
      | true =>
        have hsound := htested.sound (hl.trans hr.symm)
        obtain rfl := isNull_iff.1 hl
        obtain rfl := isNull_iff.1 hr
        exact iff_of_true ⟨hsound, trivial, trivial⟩ (.inl (.inl ⟨rfl, trivial⟩))
      | false =>
        rw [AllSound, htested.sound_iff_of_only_right hl hr, Unbranched, RestSound]
        have hchild := (hright hl).only_child hr (htested.right_single (htested.only_right hl hr))
        rcases hchild with ⟨hunbranched, hheight, hall⟩ | ⟨hbranched, hheight⟩
        · exact iff_of_true ⟨hheight, isNull_iff.1 hl ▸ trivial, hall⟩ (.inl (.inl ⟨hl, hunbranched⟩))
        · refine iff_of_false (fun h => hheight.ne' h.1) ?_
          simp [hl, hr, hbranched]
    | false =>
      cases hr : right.isNull with
      | true =>
        rw [AllSound, htested.sound_iff_of_only_left hl hr, Unbranched, RestSound]
        have hchild := (hleft hr).only_child hl (htested.left_single (htested.only_left hl hr))
        rcases hchild with ⟨hunbranched, hheight, hall⟩ | ⟨hbranched, hheight⟩
        · exact iff_of_true ⟨hheight, hall, isNull_iff.1 hr ▸ trivial⟩ (.inl (.inr ⟨hr, hunbranched⟩))
        · refine iff_of_false (fun h => hheight.ne' h.1) ?_
          simp [hl, hr, hbranched]
      | false =>
        have hsound := htested.sound (hl.trans hr.symm)
        constructor
        · rintro ⟨-, hallLeft, hallRight⟩
          exact .inr ⟨hl, hr, hallLeft, hallRight⟩
        · rintro ((⟨hnull, -⟩ | ⟨hnull, -⟩) | ⟨-, -, hallLeft, hallRight⟩)
          · exact absurd hnull (by simp [hl])
          · exact absurd hnull (by simp [hr])
          · exact ⟨hsound, hallLeft, hallRight⟩

/-! ### The ways to the leaves -/

/-- The flags of the links on the ways to the missing subtrees. -/
def ways : HedgeNode → List (List Bool)
  | null => [[]]
  | node _ _ _ leftSibling rightSibling left right =>
    left.ways.map (leftSibling :: ·) ++ right.ways.map (rightSibling :: ·)

theorem Sound.height_node (h : Sound parent parent' leftSibling rightSibling left right)
    (address : ℕ) (key : ℤ) :
    (node address key parent' leftSibling rightSibling left right).height =
      left.height + levels leftSibling := by
  rw [height]
  split_ifs with hl hr
  · rfl
  · exact h.heights_eq.symm
  · rw [Bool.not_eq_false] at hl hr
    have hls : leftSibling = false := by
      by_contra hne
      exact absurd (h.left_present (Bool.eq_true_of_not_eq_false hne)) (by simp [hl])
    rw [isNull_iff.1 hl, hls]
    rfl

/-- All ways through a tree of sound nodes go down the height of the tree. -/
theorem AllSound.count_way (h : n.AllSound parent) : ∀ way ∈ n.ways, way.count false = n.height := by
  induction n generalizing parent with
  | null =>
    intro way hway
    rw [List.mem_singleton.1 hway]
    rfl
  | node address key parent' leftSibling rightSibling left right ihl ihr =>
    obtain ⟨hsound, hleft, hright⟩ := h
    have hlevels : ∀ b, [b].count false = levels b := by decide
    intro way hway
    rw [hsound.height_node]
    rcases List.mem_append.1 hway with hway | hway
    · obtain ⟨rest, hrest, rfl⟩ := List.mem_map.1 hway
      rw [← List.singleton_append, List.count_append, ihl hleft rest hrest, hlevels, add_comm]
    · obtain ⟨rest, hrest, rfl⟩ := List.mem_map.1 hway
      rw [← List.singleton_append, List.count_append, ihr hright rest hrest, hlevels, add_comm,
        hsound.heights_eq]

/-- Behind a link the way is longer by one, and only a link to a sibling does not go down. -/
theorem length_link {sibling other : Bool} {way : List Bool} (hway : way ∈ n.ways)
    (hsingle : sibling = true → n.flagged = false) (hpresent : sibling = true → n.isNull = false)
    (hlength : n.isNull = false → way.length + (if n.flagged then 0 else 1) ≤ 2 * n.height) :
    (sibling :: way).length + (if sibling || other then 0 else 1) ≤
      2 * (n.height + levels sibling) := by
  rw [List.length_cons]
  cases sibling with
  | true =>
    have hle := hlength (hpresent rfl)
    rw [hsingle rfl] at hle
    exact hle
  | false =>
    have hlevels : levels false = 1 := rfl
    have hother : (if false || other then 0 else 1) ≤ 1 := by split_ifs <;> simp
    cases n with
    | null =>
      rw [List.mem_singleton.1 hway, hlevels]
      simp only [List.length_nil, height]
      omega
    | node =>
      have hle := hlength rfl
      rw [hlevels]
      omega

/-- Ways to leaves are at most twice as long as the tree is high. -/
theorem AllSound.length_way (h : n.AllSound parent) (hn : n.isNull = false) :
    ∀ way ∈ n.ways, way.length + (if n.flagged then 0 else 1) ≤ 2 * n.height := by
  induction n generalizing parent with
  | null => cases hn
  | node address key parent' leftSibling rightSibling left right ihl ihr =>
    obtain ⟨hsound, hleft, hright⟩ := h
    intro way hway
    rw [hsound.height_node, flagged]
    rcases List.mem_append.1 hway with hway | hway
    · obtain ⟨rest, hrest, rfl⟩ := List.mem_map.1 hway
      exact length_link hrest hsound.left_single hsound.left_present
        fun hl => ihl hleft hl rest hrest
    · obtain ⟨rest, hrest, rfl⟩ := List.mem_map.1 hway
      rw [hsound.heights_eq, Bool.or_comm]
      exact length_link hrest hsound.right_single hsound.right_present
        fun hr => ihr hright hr rest hrest

end HedgeNode

namespace HedgeTree

open HedgeNode

/-- `verify` returns true only for trees whose nodes are all as they should be, unless the tests
succeed down to a node with two subtrees and this is not the root or a node below it is wrong. -/
theorem verify_complete_iff (tree : HedgeTree) :
    (tree.verify = some (.ok ()) → tree.root.AllSound none) ↔
      ¬ tree.root.WayTested none ∨ tree.root.Unbranched ∨ tree.root.RestSound := by
  have hverify : tree.verify = some (.ok ()) ↔ tree.root.WayTested none := by
    unfold verify
    cases hroot : tree.root.isNull with
    | true =>
      rw [if_pos rfl, isNull_iff.1 hroot]
      exact iff_of_true rfl trivial
    | false =>
      rw [if_neg Bool.false_ne_true]
      exact verify_eq_ok_iff hroot
  rw [hverify]
  constructor
  · intro hsound
    by_cases htested : tree.root.WayTested none
    · exact .inr (htested.allSound_iff.1 (hsound htested))
    · exact .inl htested
  · rintro (hfails | hrest) htested
    · exact absurd htested hfails
    · exact htested.allSound_iff.2 hrest

/-- A root with two children, of which the left one has lost its parent. -/
def lostParent : HedgeTree :=
  ⟨.node 16 2 none false false (.node 32 1 none false false .null .null)
    (.node 48 3 (some 16) false false .null .null)⟩

theorem verify_lostParent :
    lostParent.verify = some (.ok ()) ∧ ¬ lostParent.root.AllSound none := by
  refine ⟨rfl, ?_⟩
  rintro ⟨-, hleft, -⟩
  exact absurd hleft.1.parent_eq (by decide)

end HedgeTree

end OMR.Compiler
