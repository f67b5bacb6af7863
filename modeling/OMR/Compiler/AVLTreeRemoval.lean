import OMR.Compiler.AVLTreeInsertion

/-!
# Removal from the AVL tree of the compiler

A removed node with two children trades places with the rightmost node of its left subtree, so
that what shrinks is always the slot of a node with at most one child. On the way back
`balance()` loses the sign of each balance it reads.
-/

namespace OMR.Compiler.AVLTree

open OMR.Lib BinTree

variable {K : Type*} {l l' r r' t t' : Tree K} {b : ℤ} {e : Entry K}
  {p : Option K} {key : K} {heightChanged heightChanged' : ℤ} {found found' : Bool}

/-- `heightChanged` tells whether the tree has become smaller by one level. -/
def Shrunk (shrinks : Bool) (t t' : Tree K) (heightChanged : ℤ) : Prop :=
  if shrinks then heightChanged ≠ 0 ∧ t'.height + 1 = t.height
  else heightChanged = 0 ∧ t'.height = t.height

/-- The balance stored at the root. -/
def rootBalance : Tree K → ℤ
  | .nil => 0
  | .node _ b _ _ => b

/-- A shrinking left subtree is dealt with at a node that is balanced, or heavy on the right
where the right child is not heavy on the left. -/
def leftMeets (b : ℤ) (r : Tree K) : Bool := b = 0 || (b = 1 && 0 ≤ rootBalance r)

section Broken

/-- A wrong balance on the right is not touched on the way back. -/
theorem removedRight_of_not_sound (hr : ¬ Sound r')
    (hremove : removedRight l b e (r', heightChanged, found) =
      some (t', heightChanged', found')) : ¬ Sound t' := by
  have hnot : ¬ balance b < 0 := by
    have := balance_eq b
    omega
  simp only [removedRight, if_neg hnot] at hremove
  split at hremove
  all_goals
    cases hremove
    exact fun hsound => hr hsound.2.2

/-- One on the left is kept as well, since a rotation takes the right child up. -/
theorem removedLeft_of_not_sound (hl : ¬ Sound l')
    (hremove : removedLeft b e r (l', heightChanged, found) =
      some (t', heightChanged', found')) : ¬ Sound t' := by
  simp only [removedLeft] at hremove
  split at hremove
  · split at hremove
    · cases r with
      | nil => cases hremove
      | node rl rb re rr =>
        have hpos : balance rb ≥ 0 := by
          have := balance_eq rb
          omega
        simp only [balanceRight, if_pos hpos, Option.map_some] at hremove
        cases hremove
        exact fun hsound => hl hsound.2.1.2.1
    · cases hremove
      exact fun hsound => hl hsound.2.1
  · cases hremove
    exact fun hsound => hl hsound.2.1

/-- A right subtree that shrinks at a node that is heavy on the left: no rotation is made. -/
theorem removedRight_breaks (hfits : Fits (-1) l.height r.height) (hne : heightChanged ≠ 0)
    (hheight : r'.height + 1 = r.height)
    (hremove : removedRight l (-1) e (r', heightChanged, found) =
      some (t', heightChanged', found')) : ¬ Sound t' := by
  rw [removedRight, if_pos hne] at hremove
  cases hremove
  rintro ⟨hnew, -⟩
  simp only [Fits] at hfits
  have hbalance := hnew.1
  simp only [balance] at hbalance
  norm_num at hbalance
  omega

/-- A left subtree that shrinks at a node that is heavy on the left, which was right again, or
at one that needs a double rotation: a single rotation is made, if there is a right child. -/
theorem removedLeft_breaks (hfits : Fits b l.height r.height) (hr : Sound r)
    (hne : heightChanged ≠ 0) (hheight : l'.height + 1 = l.height) (hmeets : leftMeets b r = false)
    (hremove : removedLeft b e r (l', heightChanged, found) =
      some (t', heightChanged', found')) : ¬ Sound t' := by
  rw [leftMeets, Bool.or_eq_false_iff, decide_eq_false_iff_not] at hmeets
  obtain ⟨hb, hmeets⟩ := hmeets
  have hone : balance b = 1 := if_neg hb
  rw [removedLeft, if_pos hne] at hremove
  simp only [hone, one_pos, if_true] at hremove
  cases r with
  | nil => cases hremove
  | node rl rb re rr =>
    obtain ⟨hrfits, -, -⟩ := hr
    have hpos : balance rb ≥ 0 := by
      have := balance_eq rb
      omega
    simp only [balanceRight, if_pos hpos, Option.map_some] at hremove
    cases hremove
    rintro ⟨-, ⟨hnew, -⟩, -⟩
    have hcases : b = -1 ∨ b = 1 ∧ rb = -1 := by
      obtain rfl | rfl : b = -1 ∨ b = 1 := by
        have := hfits.2
        omega
      · exact .inl rfl
      · have hneg : ¬ 0 ≤ rb := fun hpos => by simp [rootBalance, hpos] at hmeets
        have := hrfits.2
        exact .inr ⟨rfl, by omega⟩
    simp only [Fits, height_node, height_setParent] at hfits hrfits hnew
    obtain hzero | hone' := balance_eq rb
    · have : rb = 0 := by
        by_contra hrb
        rw [balance, if_neg hrb] at hzero
        cases hzero
      omega
    · omega

end Broken

variable [LinearOrder K]

section Step

/-- A node after its right slot. -/
theorem removedRight_of_meets {shrinks : Bool} (found : Bool) (ht : Valid p (.node l b e r))
    (hr : Valid e.key r') (hkeys : ∀ k ∈ keys r', k ∈ keys r)
    (hshrunk : Shrunk shrinks r r' heightChanged) (hmeets : shrinks → 0 ≤ b) :
    ∃ t' heightChanged', removedRight l b e (r', heightChanged, found) =
        some (t', heightChanged', found) ∧ Valid p t' ∧
      keys t' = keys l ++ e.key :: keys r' ∧
      Shrunk (shrinks && b = 1) (.node l b e r) t' heightChanged' := by
  obtain ⟨hparent, hfits, hl, -, hlow, hhigh⟩ := valid_node.1 ht
  cases shrinks with
  | false =>
    obtain ⟨rfl, hheight⟩ : heightChanged = 0 ∧ r'.height = r.height := hshrunk
    refine ⟨.node l b e r', 0, rfl, ?_, keys_node, rfl, ?_⟩
    · exact valid_node.2 ⟨hparent, by rwa [hheight], hl, hr, hlow, fun k hk => hhigh k (hkeys k hk)⟩
    · rw [height_node, height_node, hheight]
  | true =>
    obtain ⟨hne, hheight⟩ : heightChanged ≠ 0 ∧ r'.height + 1 = r.height := hshrunk
    have hnot : ¬ balance b < 0 := by
      have := balance_eq b
      omega
    have hb : b = 0 ∨ b = 1 := by
      have := hmeets rfl
      have := hfits.2
      omega
    have hbalance : balance b = b := by
      obtain rfl | rfl := hb <;> rfl
    refine ⟨.node l (b - 1) e r', b, ?_, ?_, keys_node, ?_⟩
    · rw [hbalance] at hnot
      simp only [removedRight, if_pos hne, hbalance, if_neg hnot]
    · refine valid_node.2 ⟨hparent, ?_, hl, hr, hlow, fun k hk => hhigh k (hkeys k hk)⟩
      simp only [Fits] at hfits ⊢
      omega
    · simp only [Fits] at hfits
      obtain rfl | rfl := hb
      · refine ⟨rfl, ?_⟩
        simp only [height_node]
        omega
      · refine ⟨one_ne_zero, ?_⟩
        simp only [height_node]
        omega

/-- A node after its left slot. -/
theorem removedLeft_of_meets {shrinks : Bool} (found : Bool) (hparent : e.parent = p)
    (hfits : Fits b l.height r.height) (hl : Valid e.key l') (hr : Valid e.key r)
    (hlow' : ∀ k ∈ keys l', k < e.key) (hhigh : ∀ k ∈ keys r, e.key < k)
    (hshrunk : Shrunk shrinks l l' heightChanged) (hmeets : shrinks → leftMeets b r) :
    ∃ t' heightChanged', removedLeft b e r (l', heightChanged, found) =
        some (t', heightChanged', found) ∧ Valid p t' ∧
      keys t' = keys l' ++ e.key :: keys r ∧
      Shrunk (shrinks && (b = 1 && rootBalance r ≠ 0)) (.node l b e r) t' heightChanged' := by
  cases shrinks with
  | false =>
    obtain ⟨rfl, hheight⟩ : heightChanged = 0 ∧ l'.height = l.height := hshrunk
    refine ⟨.node l' b e r, 0, rfl, ?_, keys_node, rfl, ?_⟩
    · exact valid_node.2 ⟨hparent, by rwa [hheight], hl, hr, hlow', hhigh⟩
    · rw [height_node, height_node, hheight]
  | true =>
    obtain ⟨hne, hheight⟩ : heightChanged ≠ 0 ∧ l'.height + 1 = l.height := hshrunk
    have hb := hmeets rfl
    simp only [leftMeets, Bool.or_eq_true, Bool.and_eq_true, decide_eq_true_eq] at hb
    obtain rfl | ⟨rfl, hrb⟩ := hb
    · refine ⟨.node l' 1 e r, 0, ?_, ?_, keys_node, ?_⟩
      · rw [removedLeft, if_pos hne]
        rfl
      · refine valid_node.2 ⟨hparent, ?_, hl, hr, hlow', hhigh⟩
        simp only [Fits] at hfits ⊢
        omega
      · simp only [Fits] at hfits
        refine ⟨rfl, ?_⟩
        simp only [height_node]
        omega
    · cases r with
      | nil =>
        simp only [Fits, height_nil] at hfits
        omega
      | node rl rb re rr =>
        obtain ⟨-, hrfits, hrl, hrr, hrlow, hrhigh⟩ := valid_node.1 hr
        have hre := hhigh re.key (by simp)
        have hshape : ∀ x y, Fits x l'.height rl.height → Fits y
            (max l'.height rl.height + 1) rr.height → Valid p
            (.node (.node l' x { e with parent := re.key } (setParent e.key rl)) y
              { re with parent := e.parent } rr) := by
          intro x y hx hy
          refine valid_node.2 ⟨hparent, ?_, valid_node.2 ⟨rfl, ?_, hl, hrl.setParent, hlow', ?_⟩,
            hrr, ?_, hrhigh⟩
          · rwa [height_node, height_setParent]
          · rwa [height_setParent]
          · intro k hk
            rw [keys_setParent] at hk
            exact hhigh k (by simp [hk])
          · intro k hk
            simp only [keys_node, keys_setParent, List.mem_append, List.mem_cons] at hk
            obtain hk | rfl | hk := hk
            · exact (hlow' k hk).trans hre
            · exact hre
            · exact hrlow k hk
        have hkeys' : ∀ x y, keys
            (.node (.node l' x { e with parent := re.key } (setParent e.key rl)) y
              { re with parent := e.parent } rr) =
            keys l' ++ e.key :: keys (.node rl rb re rr) := by
          intro x y
          simp
        have hrb' : rb = 0 ∨ rb = 1 := by
          have := hrfits.2
          simp only [rootBalance] at hrb
          omega
        simp only [Fits, height_node] at hfits hrfits
        obtain rfl | rfl := hrb'
        · refine ⟨_, 0, ?_, hshape 1 (-1) ?_ ?_, hkeys' 1 (-1), rfl, ?_⟩
          · rw [removedLeft, if_pos hne]
            rfl
          · simp only [Fits]
            omega
          · simp only [Fits]
            omega
          · simp only [height_node, height_setParent]
            omega
        · refine ⟨_, 1, ?_, hshape 0 0 ?_ ?_, hkeys' 0 0, one_ne_zero, ?_⟩
          · rw [removedLeft, if_pos hne]
            rfl
          · simp only [Fits]
            omega
          · simp only [Fits]
            omega
          · simp only [height_node, height_setParent]
            omega

end Step

section Rightmost

/-- Taking the rightmost node away shrinks the tree. -/
def rightShrinks : Tree K → Bool
  | .nil => false
  | .node _ b _ r => if r = .nil then true else b = 1 && rightShrinks r

/-- No right slot that shrinks on the way belongs to a node that is heavy on the left. -/
def rightMeets : Tree K → Bool
  | .nil => true
  | .node _ b _ r => if r = .nil then true else rightMeets r && (!rightShrinks r || 0 ≤ b)

/-- `remove` of the rightmost node. -/
def removeRightmost : Tree K → Option (Outcome K)
  | .nil => none
  | .node l b e r =>
    if r = .nil then some (setParent e.parent l, 1, true)
    else (removeRightmost r).bind (removedRight l b e)

omit [LinearOrder K] in
/-- The rightmost node has the last key. -/
theorem exists_swapRightmost (swap : Entry K) (ht : t ≠ .nil) :
    ∃ t' rightmost init, swapRightmost swap t = some (t', rightmost) ∧
      keys t = init ++ [rightmost.key] := by
  induction t with
  | nil => exact absurd rfl ht
  | node l b e r ihl ihr =>
    cases r with
    | nil => exact ⟨_, e, keys l, rfl, keys_node⟩
    | node rl rb re rr =>
      obtain ⟨r', rightmost, init, hswap, hkeys⟩ := ihr nofun
      refine ⟨.node l b e r', rightmost, keys l ++ e.key :: init, ?_, ?_⟩
      · rw [swapRightmost, hswap]
        · rfl
        · nofun
      · rw [keys_node, hkeys]
        simp

omit [LinearOrder K] in
/-- A parent of its own is set before or after. -/
theorem swapRightmost_setParent {swap rightmost : Entry K} (q : Option K)
    (hswap : swapRightmost swap t = some (t', rightmost)) :
    ∃ rightmost', swapRightmost swap (setParent q t) = some (setParent q t', rightmost') := by
  cases t with
  | nil => cases hswap
  | node l b e r =>
    cases r with
    | nil =>
      cases hswap
      exact ⟨_, rfl⟩
    | node rl rb re rr =>
      rw [swapRightmost, Option.map_eq_some_iff] at hswap
      · obtain ⟨⟨r', rightmost'⟩, hr, heq⟩ := hswap
        cases heq
        refine ⟨rightmost, ?_⟩
        rw [setParent, swapRightmost, hr]
        · rfl
        · simp
      · simp

/-- Below the swapped nodes the removal goes to the right all the way. -/
theorem removeFrom_swapped {swap rightmost : Entry K} {fuel : ℕ}
    (hswap : swapRightmost swap t = some (t', rightmost)) (hlow : ∀ k ∈ keys t, k < swap.key)
    (hfuel : t.height < fuel) : removeFrom swap.key fuel t' = removeRightmost t := by
  induction t generalizing t' fuel with
  | nil => cases hswap
  | node l b e r ihl ihr =>
    obtain ⟨fuel, rfl⟩ := Nat.exists_eq_succ_of_ne_zero (Nat.ne_zero_of_lt hfuel)
    cases r with
    | nil =>
      cases hswap
      rw [removeFrom, if_pos rfl, if_pos rfl, removeRightmost, if_pos rfl, setParent_setParent]
    | node rl rb re rr =>
      rw [swapRightmost, Option.map_eq_some_iff] at hswap
      · obtain ⟨⟨r', rightmost'⟩, hr, heq⟩ := hswap
        cases heq
        have hlt : e.key < swap.key := hlow e.key (by simp)
        have hlow' : ∀ k ∈ keys (.node rl rb re rr), k < swap.key := by
          intro k hk
          rw [keys_node] at hlow
          exact hlow k (List.mem_append_right _ (List.mem_cons_of_mem _ hk))
        have hheight : (node rl rb re rr).height < fuel := by
          rw [height_node] at hfuel
          omega
        have hright : removeRightmost (.node l b e (.node rl rb re rr)) =
            (removeRightmost (.node rl rb re rr)).bind (removedRight l b e) := by
          rw [removeRightmost, if_neg (by simp)]
        rw [removeFrom, if_neg hlt.ne', if_neg hlt.not_gt, ihr hr hlow' hheight, hright]
      · nofun

theorem removeRightmost_of_meets (ht : Valid p t) (hne : t ≠ .nil) (hmeets : rightMeets t) :
    ∃ t' heightChanged, removeRightmost t = some (t', heightChanged, true) ∧ Valid p t' ∧
      (∃ last, keys t = keys t' ++ [last]) ∧ Shrunk (rightShrinks t) t t' heightChanged := by
  induction t generalizing p with
  | nil => exact absurd rfl hne
  | node l b e r ihl ihr =>
    obtain ⟨hparent, hfits, hl, hr, hlow, hhigh⟩ := valid_node.1 ht
    rw [rightMeets] at hmeets
    rw [removeRightmost, rightShrinks]
    split
    · next hnil =>
      subst hnil
      refine ⟨_, _, rfl, hparent ▸ hl.setParent, ⟨e.key, by simp⟩, one_ne_zero, ?_⟩
      simp
    · next hrne =>
      rw [if_neg hrne] at hmeets
      simp only [Bool.and_eq_true, Bool.or_eq_true, Bool.not_eq_true', decide_eq_true_eq] at hmeets
      obtain ⟨r', hc, hremove, hr', ⟨last, hlast⟩, hshrunk⟩ := ihr hr hrne hmeets.1
      have hkeys : ∀ k ∈ keys r', k ∈ keys r := fun k hk => by simp [hlast, hk]
      obtain ⟨t', hc', hafter, ht', hkeys', hshrunk'⟩ := removedRight_of_meets true ht
        hr' hkeys hshrunk fun hshrinks => hmeets.2.resolve_left (by simp [hshrinks])
      refine ⟨t', hc', by rw [hremove, Option.bind_some, hafter], ht', ⟨last, ?_⟩, ?_⟩
      · rw [hkeys', keys_node, hlast]
        simp
      · rwa [Bool.and_comm]

theorem removeRightmost_of_not_meets (ht : Valid p t) (hne : t ≠ .nil)
    (hmeets : rightMeets t = false)
    (hremove : removeRightmost t = some (t', heightChanged, found)) : ¬ Sound t' := by
  induction t generalizing p t' heightChanged found with
  | nil => exact absurd rfl hne
  | node l b e r ihl ihr =>
    obtain ⟨hparent, hfits, hl, hr, hlow, hhigh⟩ := valid_node.1 ht
    rw [rightMeets] at hmeets
    rw [removeRightmost] at hremove
    split at hmeets
    · cases hmeets
    · next hrne =>
      rw [if_neg hrne] at hremove
      obtain ⟨⟨r', hc, c⟩, hbelow, hafter⟩ := Option.bind_eq_some_iff.1 hremove
      cases hrm : rightMeets r with
      | false => exact removedRight_of_not_sound (ihr hr hrne hrm hbelow) hafter
      | true =>
        obtain ⟨r'', hc'', hremove', -, -, hshrunk⟩ := removeRightmost_of_meets hr hrne hrm
        rw [hbelow] at hremove'
        cases hremove'
        simp only [hrm, Bool.true_and, Bool.or_eq_false_iff, Bool.not_eq_false',
          decide_eq_false_iff_not] at hmeets
        obtain rfl : b = -1 := by
          have := hfits.2
          omega
        rw [hmeets.1] at hshrunk
        exact removedRight_breaks hfits hshrunk.1 hshrunk.2 hafter

end Rightmost

/-- The tree becomes smaller by one level. -/
def shrinks (key : K) : Tree K → Bool
  | .nil => false
  | .node l b e r =>
    if key = e.key then
      if r = .nil ∨ l = .nil then true
      else rightShrinks l && (b = 1 && rootBalance r ≠ 0)
    else if key < e.key then shrinks key l && (b = 1 && rootBalance r ≠ 0)
    else shrinks key r && b = 1

/-- A removed node with two children is not heavy on the left, and each slot that shrinks
belongs to a node that can deal with it. -/
def removeMeets (key : K) : Tree K → Bool
  | .nil => true
  | .node l b e r =>
    if key = e.key then
      if r = .nil ∨ l = .nil then true
      else 0 ≤ b && rightMeets l && (!rightShrinks l || leftMeets b r)
    else if key < e.key then removeMeets key l && (!shrinks key l || leftMeets b r)
    else removeMeets key r && (!shrinks key r || 0 ≤ b)

/-- The node with two children, after its places have been traded. -/
theorem removeFrom_eq (ht : Valid p (.node l b e r)) (hl : l ≠ .nil) (hr : r ≠ .nil) {fuel : ℕ}
    (hfuel : l.height < fuel) : ∃ (top : Entry K) (init : List K), keys l = init ++ [top.key] ∧
      top.parent = p ∧ removeFrom e.key (fuel + 1) (.node l b e r) =
        (removeRightmost (setParent top.key l)).bind
          (removedLeft (balance b) top (setParent top.key r)) := by
  obtain ⟨hparent, -, -, -, hlow, -⟩ := valid_node.1 ht
  obtain ⟨l', rightmost, init, hswap, hkeys⟩ := exists_swapRightmost e hl
  obtain ⟨rightmost', hswap'⟩ := swapRightmost_setParent rightmost.key hswap
  refine ⟨{ rightmost with parent := e.parent }, init, hkeys, hparent, ?_⟩
  have hbelow := removeFrom_swapped hswap' (by rwa [keys_setParent])
    (by rwa [height_setParent] : (setParent _ l).height < fuel)
  rw [removeFrom, if_pos rfl, if_neg hr, if_neg hl, hswap]
  exact congrArg (Option.bind · _) hbelow

omit [LinearOrder K] in
@[simp] theorem setParent_eq_nil {q : Option K} : setParent q t = .nil ↔ t = .nil := by
  cases t <;> simp [setParent]

omit [LinearOrder K] in
@[simp] theorem rootBalance_setParent {q : Option K} :
    rootBalance (setParent q t) = rootBalance t := by
  cases t <;> rfl

@[simp] theorem rightShrinks_setParent {q : Option K} :
    rightShrinks (setParent q t) = rightShrinks t := by
  cases t <;> rfl

@[simp] theorem rightMeets_setParent {q : Option K} :
    rightMeets (setParent q t) = rightMeets t := by
  cases t <;> rfl

/-- The removal of a node with two children where the condition is met. -/
theorem removeFrom_root_of_meets (ht : Valid p (.node l b e r)) (hl : l ≠ .nil) (hr : r ≠ .nil)
    {fuel : ℕ} (hfuel : l.height < fuel) (hb : 0 ≤ b) (hright : rightMeets l)
    (hleft : rightShrinks l → leftMeets b r) :
    ∃ t' heightChanged, removeFrom e.key (fuel + 1) (.node l b e r) =
        some (t', heightChanged, true) ∧ Valid p t' ∧ keys t' = keys l ++ keys r ∧
      Shrunk (rightShrinks l && (b = 1 && rootBalance r ≠ 0)) (.node l b e r) t'
        heightChanged := by
  obtain ⟨-, hfits, hvl, hvr, hlow, hhigh⟩ := valid_node.1 ht
  obtain ⟨top, init, hkeys, hparent, hremove⟩ := removeFrom_eq ht hl hr hfuel
  have hbalance : balance b = b := by
    obtain rfl | rfl : b = 0 ∨ b = 1 := by
      have := hfits.2
      omega
    all_goals rfl
  obtain ⟨l', hc, hbelow, hl', ⟨last, hlast⟩, hshrunk⟩ :=
    removeRightmost_of_meets (hvl.setParent (p := some top.key)) (by simpa using hl)
      (by simpa using hright)
  rw [keys_setParent, hkeys] at hlast
  obtain ⟨rfl, heq⟩ := List.append_inj' hlast rfl
  cases heq
  have htop : top.key ∈ keys l := by simp [hkeys]
  have hordered := hvl.ordered
  rw [hkeys, List.pairwise_append] at hordered
  obtain ⟨t', hc', hafter, ht', hkeys', hshrunk'⟩ := removedLeft_of_meets true
    (l := setParent top.key l) (b := b) hparent (by simpa using hfits) hl'
    (hvr.setParent (p := some top.key)) (fun k hk => hordered.2.2 k hk _ List.mem_cons_self)
    (fun k hk => (hlow _ htop).trans (hhigh k (by simpa using hk))) hshrunk
    (fun hshrinks => by simpa [leftMeets] using hleft (by simpa using hshrinks))
  refine ⟨t', hc', ?_, ht', ?_, ?_⟩
  · rw [hremove, hbelow, Option.bind_some, hbalance, hafter]
  · rw [hkeys', hkeys, keys_setParent]
    simp
  · simpa [Shrunk] using hshrunk'

section Keys

variable {ks : List K}

theorem mem_keys_removed_left (hlt : key < e.key) (hhigh : ∀ k ∈ keys r, e.key < k)
    (hkeys : ∀ k, k ∈ ks ↔ k ∈ keys l ∧ k ≠ key) (k : K) :
    k ∈ ks ++ e.key :: keys r ↔ k ∈ keys (.node l b e r) ∧ k ≠ key := by
  have hrest : k ∈ e.key :: keys r → k ≠ key := by
    intro hk
    obtain rfl | hk := List.mem_cons.1 hk
    · exact hlt.ne'
    · exact (hlt.trans (hhigh k hk)).ne'
  rw [keys_node, List.mem_append, List.mem_append, hkeys, or_and_right]
  exact or_congr_right ⟨fun hk => ⟨hk, hrest hk⟩, And.left⟩

theorem mem_keys_removed_right (hlt : e.key < key) (hlow : ∀ k ∈ keys l, k < e.key)
    (hkeys : ∀ k, k ∈ ks ↔ k ∈ keys r ∧ k ≠ key) (k : K) :
    k ∈ keys l ++ e.key :: ks ↔ k ∈ keys (.node l b e r) ∧ k ≠ key := by
  have hleft : k ∈ keys l → k ≠ key := fun hk => ((hlow k hk).trans hlt).ne
  have hroot : k = e.key → k ≠ key := fun heq => heq ▸ hlt.ne
  rw [keys_node, List.mem_append, List.mem_append, List.mem_cons, List.mem_cons, hkeys,
    or_and_right, or_and_right]
  exact or_congr ⟨fun hk => ⟨hk, hleft hk⟩, And.left⟩
    (or_congr_left ⟨fun hk => ⟨hk, hroot hk⟩, And.left⟩)

theorem mem_keys_removed_root (hlow : ∀ k ∈ keys l, k < e.key) (hhigh : ∀ k ∈ keys r, e.key < k)
    (k : K) : k ∈ keys l ++ keys r ↔ k ∈ keys (.node l b e r) ∧ k ≠ e.key := by
  have hleft : k ∈ keys l → k ≠ e.key := fun hk => (hlow k hk).ne
  have hright : k ∈ keys r → k ≠ e.key := fun hk => (hhigh k hk).ne'
  rw [keys_node, List.mem_append, List.mem_append, List.mem_cons]
  constructor
  · rintro (hk | hk)
    · exact ⟨.inl hk, hleft hk⟩
    · exact ⟨.inr (.inr hk), hright hk⟩
  · rintro ⟨hk | hk | hk, hne⟩
    · exact .inl hk
    · exact absurd hk hne
    · exact .inr hk

end Keys

/-- Where the condition is met, the tree without the key is valid. -/
theorem removeFrom_of_meets (ht : Valid p t) {fuel : ℕ} (hfuel : t.height < fuel)
    (hmeets : removeMeets key t) : ∃ t' heightChanged,
      removeFrom key fuel t = some (t', heightChanged, decide (key ∈ keys t)) ∧ Valid p t' ∧
        (∀ k, k ∈ keys t' ↔ k ∈ keys t ∧ k ≠ key) ∧ Shrunk (shrinks key t) t t' heightChanged := by
  induction t generalizing p fuel with
  | nil =>
    obtain ⟨fuel, rfl⟩ := Nat.exists_eq_succ_of_ne_zero (Nat.ne_zero_of_lt hfuel)
    exact ⟨.nil, 0, rfl, valid_nil, by simp, rfl, rfl⟩
  | node l b e r ihl ihr =>
    obtain ⟨fuel, rfl⟩ := Nat.exists_eq_succ_of_ne_zero (Nat.ne_zero_of_lt hfuel)
    obtain ⟨hparent, hfits, hl, hr, hlow, hhigh⟩ := valid_node.1 ht
    rw [height_node] at hfuel
    have hfl : l.height < fuel := by omega
    have hfr : r.height < fuel := by omega
    rw [removeMeets] at hmeets
    obtain hlt | rfl | hlt := lt_trichotomy key e.key
    · rw [if_neg hlt.ne, if_pos hlt, Bool.and_eq_true, Bool.or_eq_true, Bool.not_eq_true']
        at hmeets
      obtain ⟨l', hc, hbelow, hl', hkeys, hshrunk⟩ := ihl hl hfl hmeets.1
      obtain ⟨t', hc', hafter, ht', hkeys', hshrunk'⟩ := removedLeft_of_meets
        (decide (key ∈ keys l)) hparent hfits hl' hr (fun k hk => hlow k ((hkeys k).1 hk).1) hhigh
        hshrunk fun hshrinks => hmeets.2.resolve_left (by simp [hshrinks])
      have hnot : key ∉ keys r := fun hmem => hlt.not_gt (hhigh key hmem)
      have hmem : key ∈ keys (.node l b e r) ↔ key ∈ keys l := by
        simp [hlt.ne, hnot]
      refine ⟨t', hc', ?_, ht', ?_, ?_⟩
      · rw [removeFrom, if_neg hlt.ne, if_pos hlt, hbelow, Option.bind_some, hafter]
        simp only [hmem]
      · rw [hkeys']
        exact mem_keys_removed_left hlt hhigh hkeys
      · rwa [shrinks, if_neg hlt.ne, if_pos hlt]
    · rw [if_pos rfl] at hmeets
      rw [shrinks, if_pos rfl]
      have hfound : decide (e.key ∈ keys (.node l b e r)) = true := by simp
      have hsplit := mem_keys_removed_root (b := b) hlow hhigh
      rw [hfound]
      by_cases hnil : r = .nil ∨ l = .nil
      · rw [if_pos hnil]
        obtain rfl | rfl := hnil
        · refine ⟨setParent e.parent l, 1, ?_, hparent ▸ hl.setParent, ?_, one_ne_zero, ?_⟩
          · rw [removeFrom, if_pos rfl, if_pos rfl]
          · simpa using hsplit
          · simp
        · refine ⟨setParent e.parent r, 1, ?_, hparent ▸ hr.setParent, ?_, one_ne_zero, ?_⟩
          · rw [removeFrom, if_pos rfl, if_pos rfl]
            split
            · next hnil =>
              rw [hnil]
            · rfl
          · simpa using hsplit
          · simp
      · rw [if_neg hnil] at hmeets ⊢
        rw [not_or] at hnil
        simp only [Bool.and_eq_true, Bool.or_eq_true, Bool.not_eq_true', decide_eq_true_eq]
          at hmeets
        obtain ⟨t', hc, hremove, ht', hkeys, hshrunk⟩ := removeFrom_root_of_meets ht hnil.2 hnil.1
          hfl hmeets.1.1 hmeets.1.2
          fun hshrinks => hmeets.2.resolve_left (by simp [hshrinks])
        exact ⟨t', hc, hremove, ht', fun k => by rw [hkeys, hsplit], hshrunk⟩
    · rw [if_neg hlt.ne', if_neg hlt.not_gt, Bool.and_eq_true, Bool.or_eq_true,
        Bool.not_eq_true', decide_eq_true_eq] at hmeets
      obtain ⟨r', hc, hbelow, hr', hkeys, hshrunk⟩ := ihr hr hfr hmeets.1
      obtain ⟨t', hc', hafter, ht', hkeys', hshrunk'⟩ := removedRight_of_meets
        (decide (key ∈ keys r)) ht hr' (fun k hk => ((hkeys k).1 hk).1) hshrunk
        fun hshrinks => hmeets.2.resolve_left (by simp [hshrinks])
      have hnot : key ∉ keys l := fun hmem => hlt.not_gt (hlow key hmem)
      have hmem : key ∈ keys (.node l b e r) ↔ key ∈ keys r := by
        simp [hlt.ne', hnot]
      refine ⟨t', hc', ?_, ht', ?_, ?_⟩
      · rw [removeFrom, if_neg hlt.ne', if_neg hlt.not_gt, hbelow, Option.bind_some, hafter]
        simp only [hmem]
      · rw [hkeys']
        exact mem_keys_removed_right hlt hlow hkeys
      · rwa [shrinks, if_neg hlt.ne', if_neg hlt.not_gt]

omit [LinearOrder K] in
/-- Two balances that are read alike are dealt with alike. -/
theorem removedLeft_congr (b' : ℤ) (hb : balance b = balance b') (hne : heightChanged ≠ 0) :
    removedLeft b e r (l', heightChanged, found) =
      removedLeft b' e r (l', heightChanged, found) := by
  rw [removedLeft, removedLeft, if_pos hne, if_pos hne, hb]

/-- The removal of a node with two children where the condition is not met. -/
theorem removeFrom_root_of_not_meets (ht : Valid p (.node l b e r)) (hl : l ≠ .nil)
    (hr : r ≠ .nil) {fuel : ℕ} (hfuel : l.height < fuel)
    (hmeets : (0 ≤ b && rightMeets l && (!rightShrinks l || leftMeets b r)) = false)
    (hremove : removeFrom e.key (fuel + 1) (.node l b e r) = some (t', heightChanged, found)) :
    ¬ Sound t' := by
  obtain ⟨-, hfits, hvl, hvr, -, -⟩ := valid_node.1 ht
  obtain ⟨top, init, -, -, heq⟩ := removeFrom_eq ht hl hr hfuel
  rw [heq] at hremove
  obtain ⟨⟨l', hc, c⟩, hbelow, hafter⟩ := Option.bind_eq_some_iff.1 hremove
  have hvl' := hvl.setParent (p := some top.key)
  have hne : setParent top.key l ≠ .nil := by simpa using hl
  have hfits' : ∀ top : Entry K, Fits b (setParent top.key l).height
      (setParent top.key r).height := fun top => by simpa using hfits
  have hsound : Sound (setParent top.key r) := sound_setParent.2 hvr.sound
  cases hrm : rightMeets l with
  | false =>
    have hbroken := removeRightmost_of_not_meets hvl' hne (by simpa using hrm) hbelow
    exact removedLeft_of_not_sound hbroken hafter
  | true =>
    obtain ⟨l'', hc'', hbelow', -, -, hshrunk⟩ :=
      removeRightmost_of_meets hvl' hne (by simpa using hrm)
    rw [hbelow] at hbelow'
    cases hbelow'
    rw [rightShrinks_setParent] at hshrunk
    rw [hrm, Bool.and_true, Bool.and_eq_false_iff, Bool.or_eq_false_iff, Bool.not_eq_false',
      decide_eq_false_iff_not] at hmeets
    by_cases hb : 0 ≤ b
    · obtain ⟨hshrinks, hleft⟩ := hmeets.resolve_left (not_not.2 hb)
      have hbalance : balance b = b := by
        obtain rfl | rfl : b = 0 ∨ b = 1 := by
          have := hfits.2
          omega
        all_goals rfl
      rw [hshrinks] at hshrunk
      rw [hbalance] at hafter
      exact removedLeft_breaks (hfits' top) hsound hshrunk.1 hshrunk.2
        (by simpa [leftMeets] using hleft) hafter
    · obtain rfl : b = -1 := by
        have := hfits.2
        omega
      cases hshrinks : rightShrinks l with
      | false =>
        rw [hshrinks] at hshrunk
        obtain ⟨rfl, hheight⟩ := hshrunk
        cases hafter
        rintro ⟨hnew, -⟩
        have hone : Fits 1 l'.height (setParent top.key r).height := hnew
        simp only [Fits, height_setParent] at hfits hone hheight
        omega
      | true =>
        rw [hshrinks] at hshrunk
        have hread : balance (balance (-1)) = balance (-1) := rfl
        rw [removedLeft_congr (-1) hread hshrunk.1] at hafter
        exact removedLeft_breaks (hfits' top) hsound hshrunk.1 hshrunk.2 rfl hafter

/-- Where the condition is not met, a NULL pointer is followed or a wrong balance stays. -/
theorem removeFrom_of_not_meets (ht : Valid p t) {fuel : ℕ} (hfuel : t.height < fuel)
    (hmeets : removeMeets key t = false)
    (hremove : removeFrom key fuel t = some (t', heightChanged, found)) : ¬ Sound t' := by
  induction t generalizing p fuel t' heightChanged found with
  | nil => cases hmeets
  | node l b e r ihl ihr =>
    obtain ⟨fuel, rfl⟩ := Nat.exists_eq_succ_of_ne_zero (Nat.ne_zero_of_lt hfuel)
    obtain ⟨hparent, hfits, hl, hr, hlow, hhigh⟩ := valid_node.1 ht
    rw [height_node] at hfuel
    have hfl : l.height < fuel := by omega
    have hfr : r.height < fuel := by omega
    rw [removeMeets] at hmeets
    obtain hlt | rfl | hlt := lt_trichotomy key e.key
    · rw [if_neg hlt.ne, if_pos hlt] at hmeets
      rw [removeFrom, if_neg hlt.ne, if_pos hlt] at hremove
      obtain ⟨⟨l', hc, c⟩, hbelow, hafter⟩ := Option.bind_eq_some_iff.1 hremove
      cases hlm : removeMeets key l with
      | false =>
        exact removedLeft_of_not_sound (ihl hl hfl hlm hbelow) hafter
      | true =>
        obtain ⟨l'', hc'', hbelow', -, -, hshrunk⟩ :=
          removeFrom_of_meets hl hfl hlm
        rw [hbelow] at hbelow'
        cases hbelow'
        rw [hlm, Bool.true_and, Bool.or_eq_false_iff, Bool.not_eq_false'] at hmeets
        rw [hmeets.1] at hshrunk
        exact removedLeft_breaks hfits hr.sound hshrunk.1 hshrunk.2 hmeets.2 hafter
    · rw [if_pos rfl] at hmeets
      split at hmeets
      · cases hmeets
      · next hnil =>
        rw [not_or] at hnil
        exact removeFrom_root_of_not_meets ht hnil.2 hnil.1 hfl hmeets hremove
    · rw [if_neg hlt.ne', if_neg hlt.not_gt] at hmeets
      rw [removeFrom, if_neg hlt.ne', if_neg hlt.not_gt] at hremove
      obtain ⟨⟨r', hc, c⟩, hbelow, hafter⟩ := Option.bind_eq_some_iff.1 hremove
      cases hrm : removeMeets key r with
      | false =>
        exact removedRight_of_not_sound (ihr hr hfr hrm hbelow) hafter
      | true =>
        obtain ⟨r'', hc'', hbelow', -, -, hshrunk⟩ :=
          removeFrom_of_meets hr hfr hrm
        rw [hbelow] at hbelow'
        cases hbelow'
        rw [hrm, Bool.true_and, Bool.or_eq_false_iff, Bool.not_eq_false',
          decide_eq_false_iff_not] at hmeets
        rw [hmeets.1] at hshrunk
        obtain rfl : b = -1 := by
          have := hfits.2
          omega
        exact removedRight_breaks hfits hshrunk.1 hshrunk.2 hafter

end OMR.Compiler.AVLTree
