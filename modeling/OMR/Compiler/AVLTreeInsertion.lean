import OMR.Compiler.AVLTree

/-!
# Insertion into the AVL tree of the compiler

`balance()` returns a `bool`, so that a negative balance is read as 1. On the way back from a
new node that matters at the lowest node of the search path that is not balanced: all below it
become taller.
-/

namespace OMR.Compiler.AVLTree

open OMR.Lib BinTree

variable {K : Type*}

/-- The stored balance is the right height minus the left one, and -1, 0 or 1. -/
def Fits (b : ℤ) (hl hr : ℕ) : Prop := b = hr - hl ∧ -1 ≤ b ∧ b ≤ 1

def Sound (t : Tree K) : Prop := t.Tagged Fits

/-- The parent pointers below a node. -/
def ParentsRight (parent : Option K) : Tree K → Prop
  | .nil => True
  | .node l _ e r =>
    e.parent = parent ∧ ParentsRight (some e.key) l ∧ ParentsRight (some e.key) r

/-- The keys in order. -/
def keys (t : Tree K) : List K := t.inorder.map (·.key)

section Simp

variable {l r t : Tree K} {b : ℤ} {e : Entry K} {p : Option K}

@[simp] theorem keys_nil : keys (.nil : Tree K) = [] := rfl

@[simp] theorem keys_node : keys (.node l b e r) = keys l ++ e.key :: keys r := by
  simp [keys]

@[simp] theorem sound_nil : Sound (.nil : Tree K) := trivial

@[simp] theorem sound_node :
    Sound (.node l b e r) ↔ Fits b l.height r.height ∧ Sound l ∧ Sound r := Iff.rfl

@[simp] theorem keys_setParent : keys (setParent p t) = keys t := by
  cases t <;> simp [setParent]

@[simp] theorem height_setParent : (setParent p t).height = t.height := by
  cases t <;> rfl

@[simp] theorem sound_setParent : Sound (setParent p t) ↔ Sound t := by
  cases t <;> rfl

@[simp] theorem setParent_setParent {q : Option K} :
    setParent p (setParent q t) = setParent p t := by
  cases t <;> rfl

theorem parentsRight_setParent {q : Option K} (h : ParentsRight q t) :
    ParentsRight p (setParent p t) := by
  cases t with
  | nil => trivial
  | node l b e r => exact ⟨rfl, h.2⟩

end Simp

variable [LinearOrder K]

/-- The keys increase, the parents are right and so are the balances. -/
structure Valid (parent : Option K) (t : Tree K) : Prop where
  ordered : (keys t).Pairwise (· < ·)
  parents : ParentsRight parent t
  sound : Sound t

variable {l r t t' : Tree K} {b : ℤ} {e : Entry K} {p : Option K} {key : K}

theorem valid_nil : Valid p (.nil : Tree K) := ⟨List.Pairwise.nil, trivial, trivial⟩

theorem valid_node : Valid p (.node l b e r) ↔
    e.parent = p ∧ Fits b l.height r.height ∧ Valid e.key l ∧ Valid e.key r ∧
      (∀ k ∈ keys l, k < e.key) ∧ ∀ k ∈ keys r, e.key < k := by
  constructor
  · rintro ⟨hordered, ⟨hparent, hpl, hpr⟩, hfits, hsl, hsr⟩
    rw [keys_node, List.pairwise_append, List.pairwise_cons] at hordered
    obtain ⟨hl, ⟨hhigh, hr⟩, hlow⟩ := hordered
    exact ⟨hparent, hfits, ⟨hl, hpl, hsl⟩, ⟨hr, hpr, hsr⟩,
      fun k hk => hlow k hk e.key List.mem_cons_self, hhigh⟩
  · rintro ⟨hparent, hfits, hl, hr, hlow, hhigh⟩
    refine ⟨?_, ⟨hparent, hl.parents, hr.parents⟩, hfits, hl.sound, hr.sound⟩
    rw [keys_node, List.pairwise_append, List.pairwise_cons]
    refine ⟨hl.ordered, ⟨hhigh, hr.ordered⟩, fun k hk k' hk' => ?_⟩
    obtain rfl | hk' := List.mem_cons.1 hk'
    · exact hlow k hk
    · exact (hlow k hk).trans (hhigh k' hk')

theorem Valid.setParent {q : Option K} (h : Valid q t) : Valid p (setParent p t) :=
  ⟨by rw [keys_setParent]; exact h.ordered, parentsRight_setParent h.parents,
    sound_setParent.2 h.sound⟩

/-- The way to the slot of the key is balanced, so that the tree grows with the key. -/
def grows (key : K) : Tree K → Bool
  | .nil => true
  | .node l b e r =>
    if key < e.key then b = 0 && grows key l
    else if e.key < key then b = 0 && grows key r
    else false

/-- The tree that has grown. -/
def grown (key : K) (p : Option K) : Tree K → Tree K
  | .nil => .node .nil 0 ⟨key, p⟩ .nil
  | .node l _ e r =>
    if key < e.key then .node (grown key e.key l) (-1) e r
    else .node l 1 e (grown key e.key r)

theorem createFrom_of_grows (h : grows key t) :
    ∃ heightChanged, heightChanged ≠ 0 ∧
      createFrom key p t = some (grown key p t, heightChanged, true) := by
  induction t generalizing p with
  | nil => exact ⟨1, one_ne_zero, rfl⟩
  | node l b e r ihl ihr =>
    rw [grows] at h
    split at h
    · next hlt =>
      simp only [Bool.and_eq_true, decide_eq_true_eq] at h
      obtain ⟨rfl, h⟩ := h
      obtain ⟨hc, hne, hcreate⟩ := ihl (p := e.key) h
      refine ⟨-1, by decide, ?_⟩
      simp [createFrom, hlt, hcreate, createdLeft, hne, balance, grown]
    · next hnlt =>
      split at h
      · next hlt =>
        simp only [Bool.and_eq_true, decide_eq_true_eq] at h
        obtain ⟨rfl, h⟩ := h
        obtain ⟨hc, hne, hcreate⟩ := ihr (p := e.key) h
        refine ⟨1, by decide, ?_⟩
        simp [createFrom, hnlt, hlt, hcreate, createdRight, hne, balance, grown]
      · cases h

theorem mem_keys_grown {k : K} (h : grows key t) :
    k ∈ keys (grown key p t) ↔ k = key ∨ k ∈ keys t := by
  induction t generalizing p with
  | nil => simp [grown]
  | node l b e r ihl ihr =>
    rw [grows] at h
    rw [grown]
    split at h
    · next hlt =>
      rw [if_pos hlt]
      simp only [Bool.and_eq_true] at h
      simp only [keys_node, List.mem_append, List.mem_cons, ihl h.2]
      tauto
    · next hnlt =>
      rw [if_neg hnlt]
      split at h
      · simp only [Bool.and_eq_true] at h
        simp only [keys_node, List.mem_append, List.mem_cons, ihr h.2]
        tauto
      · cases h

theorem grown_valid (ht : Valid p t) (h : grows key t) :
    Valid p (grown key p t) ∧ (grown key p t).height = t.height + 1 := by
  induction t generalizing p with
  | nil =>
    refine ⟨valid_node.2 ⟨rfl, ⟨rfl, by decide, by decide⟩, valid_nil, valid_nil, ?_, ?_⟩, rfl⟩
    all_goals simp
  | node l b e r ihl ihr =>
    obtain ⟨hparent, hfits, hl, hr, hlow, hhigh⟩ := valid_node.1 ht
    rw [grows] at h
    rw [grown]
    split at h
    · next hlt =>
      simp only [Bool.and_eq_true, decide_eq_true_eq] at h
      obtain ⟨rfl, h⟩ := h
      obtain ⟨hnew, hheight⟩ := ihl hl h
      rw [if_pos hlt]
      simp only [Fits] at hfits
      refine ⟨valid_node.2 ⟨hparent, ?_, hnew, hr, ?_, hhigh⟩, ?_⟩
      · simp only [Fits, hheight]
        omega
      · intro k hk
        obtain rfl | hk := (mem_keys_grown h).1 hk
        · exact hlt
        · exact hlow k hk
      · simp only [height_node, hheight]
        omega
    · next hnlt =>
      rw [if_neg hnlt]
      split at h
      · next hlt =>
        simp only [Bool.and_eq_true, decide_eq_true_eq] at h
        obtain ⟨rfl, h⟩ := h
        obtain ⟨hnew, hheight⟩ := ihr hr h
        simp only [Fits] at hfits
        refine ⟨valid_node.2 ⟨hparent, ?_, hl, hnew, hlow, ?_⟩, ?_⟩
        · simp only [Fits, hheight]
          omega
        · intro k hk
          obtain rfl | hk := (mem_keys_grown h).1 hk
          · exact hlt
          · exact hhigh k hk
        · simp only [height_node, hheight]
          omega
      · cases h

/-- The key goes to the right of the root. -/
def goesRight (key : K) : Tree K → Bool
  | .nil => false
  | .node _ _ e _ => e.key < key

/-- Where a node on the way grows on one side, it is balanced, or it is heavy on the right
and the key goes to its left, or to its right and then right again. -/
def createMeets (key : K) : Tree K → Bool
  | .nil => true
  | .node l b e r =>
    if key < e.key then if grows key l then 0 ≤ b else createMeets key l
    else if e.key < key then
      if grows key r then b = 0 || (b = 1 && goesRight key r) else createMeets key r
    else true

/-- A key that is present is found. -/
theorem createFrom_of_mem (ht : Valid p t) (hkey : key ∈ keys t) :
    createFrom key p t = some (t, 0, false) := by
  induction t generalizing p with
  | nil => cases hkey
  | node l b e r ihl ihr =>
    obtain ⟨-, -, hl, hr, hlow, hhigh⟩ := valid_node.1 ht
    rw [keys_node, List.mem_append, List.mem_cons] at hkey
    rw [createFrom]
    obtain hkey | rfl | hkey := hkey
    · rw [if_pos (hlow key hkey), ihl hl hkey]
      rfl
    · rw [if_neg (lt_irrefl _), if_neg (lt_irrefl _)]
    · rw [if_neg (hhigh key hkey).not_gt, if_pos (hhigh key hkey), ihr hr hkey]
      rfl

/-- At a node that is heavy on the right, the rotation after a key has gone right twice. -/
theorem createdRight_rotates {rl rr : Tree K} {re : Entry K} {heightChanged : ℤ}
    (ht : Valid p (.node l 1 e (.node rl 0 re rr))) (hlt : e.key < key)
    (hlt' : re.key < key) (hgrows : grows key rr) (hne : heightChanged ≠ 0) :
    ∃ t', createdRight l 1 e (.node rl 1 re (grown key re.key rr), heightChanged, true) =
        some (t', 0, true) ∧
      Valid p t' ∧ t'.height = (node l 1 e (.node rl 0 re rr)).height ∧
      ∀ k, k ∈ keys t' ↔ k = key ∨ k ∈ keys (.node l 1 e (.node rl 0 re rr)) := by
  obtain ⟨hparent, hfits, hl, hr, hlow, hhigh⟩ := valid_node.1 ht
  obtain ⟨hrparent, hrfits, hrl, hrr, hrlow, hrhigh⟩ := valid_node.1 hr
  obtain ⟨hnew, hheight⟩ := grown_valid hrr hgrows
  simp only [Fits, height_node] at hfits hrfits
  refine ⟨.node (.node l 0 { e with parent := re.key } (setParent e.key rl)) 0
    { re with parent := e.parent } (grown key re.key rr), ?_, ?_, ?_, ?_⟩
  · rw [createdRight, if_pos hne]
    rfl
  · refine valid_node.2 ⟨hparent, ?_, valid_node.2 ⟨rfl, ?_, hl, hrl.setParent, hlow, ?_⟩, hnew,
      ?_, ?_⟩
    · simp only [Fits, height_node, height_setParent, hheight]
      omega
    · simp only [Fits, height_setParent]
      omega
    · intro k hk
      rw [keys_setParent] at hk
      exact hhigh k (by simp [hk])
    · intro k hk
      have hre := hhigh re.key (by simp)
      simp only [keys_node, keys_setParent, List.mem_append, List.mem_cons] at hk
      obtain hk | rfl | hk := hk
      · exact (hlow k hk).trans hre
      · exact hre
      · exact hrlow k hk
    · intro k hk
      obtain rfl | hk := (mem_keys_grown hgrows).1 hk
      · exact hlt'
      · exact hrhigh k hk
  · simp only [height_node, height_setParent, hheight]
    omega
  · intro k
    simp only [keys_node, keys_setParent, List.mem_append, List.mem_cons, mem_keys_grown hgrows]
    tauto

/-- Where the condition is met and the tree does not grow, it is valid again. -/
theorem createFrom_of_meets (ht : Valid p t) (hkey : key ∉ keys t) (hmeets : createMeets key t)
    (hgrows : grows key t = false) : ∃ t', createFrom key p t = some (t', 0, true) ∧
      Valid p t' ∧ t'.height = t.height ∧ ∀ k, k ∈ keys t' ↔ k = key ∨ k ∈ keys t := by
  induction t generalizing p with
  | nil => cases hgrows
  | node l b e r ihl ihr =>
    obtain ⟨hparent, hfits, hl, hr, hlow, hhigh⟩ := valid_node.1 ht
    rw [keys_node, List.mem_append, List.mem_cons, not_or, not_or] at hkey
    rw [createMeets] at hmeets
    rw [grows] at hgrows
    rw [createFrom]
    obtain hlt | heq | hlt := lt_trichotomy key e.key
    · rw [if_pos hlt] at hmeets hgrows ⊢
      cases hgl : grows key l with
      | true =>
        rw [hgl] at hmeets hgrows
        obtain ⟨hc, hne, hcreate⟩ := createFrom_of_grows (p := some e.key) hgl
        obtain ⟨hnew, hheight⟩ := grown_valid hl hgl
        have hb : b = 1 := by
          simp only [Bool.and_true, decide_eq_false_iff_not, if_true, decide_eq_true_eq]
            at hmeets hgrows
          have := hfits.2
          omega
        subst hb
        simp only [Fits] at hfits
        refine ⟨.node (grown key e.key l) 0 e r, ?_, ?_, ?_, ?_⟩
        · rw [hcreate, Option.bind_some, createdLeft, if_pos hne]
          rfl
        · refine valid_node.2 ⟨hparent, ?_, hnew, hr, ?_, hhigh⟩
          · simp only [Fits, hheight]
            omega
          · intro k hk
            obtain rfl | hk := (mem_keys_grown hgl).1 hk
            · exact hlt
            · exact hlow k hk
        · simp only [height_node, hheight]
          omega
        · intro k
          simp only [keys_node, List.mem_append, List.mem_cons, mem_keys_grown hgl]
          tauto
      | false =>
        rw [hgl] at hmeets
        obtain ⟨l', hcreate, hl', hheight, hkeys⟩ := ihl hl hkey.1 hmeets hgl
        refine ⟨.node l' b e r, by rw [hcreate]; rfl, ?_, ?_, ?_⟩
        · refine valid_node.2 ⟨hparent, by rwa [hheight], hl', hr, ?_, hhigh⟩
          intro k hk
          obtain rfl | hk := (hkeys k).1 hk
          · exact hlt
          · exact hlow k hk
        · rw [height_node, height_node, hheight]
        · intro k
          simp only [keys_node, List.mem_append, List.mem_cons, hkeys]
          tauto
    · exact absurd heq hkey.2.1
    · rw [if_neg hlt.not_gt, if_pos hlt] at hmeets hgrows ⊢
      cases hgr : grows key r with
      | true =>
        rw [hgr] at hmeets hgrows
        obtain ⟨hc, hne, hcreate⟩ := createFrom_of_grows (p := some e.key) hgr
        have hb : b = 1 ∧ goesRight key r := by
          simp only [Bool.and_true, decide_eq_false_iff_not] at hgrows
          simpa [hgrows] using hmeets
        obtain ⟨rfl, hright⟩ := hb
        cases r with
        | nil => cases hright
        | node rl rb re rr =>
          have hlt' : re.key < key := of_decide_eq_true hright
          rw [grows, if_neg hlt'.not_gt, if_pos hlt'] at hgr
          simp only [Bool.and_eq_true, decide_eq_true_eq] at hgr
          obtain ⟨rfl, hgrr⟩ := hgr
          rw [hcreate, grown, if_neg hlt'.not_gt]
          exact createdRight_rotates ht hlt hlt' hgrr hne
      | false =>
        rw [hgr] at hmeets
        obtain ⟨r', hcreate, hr', hheight, hkeys⟩ := ihr hr hkey.2.2 hmeets hgr
        refine ⟨.node l b e r', by rw [hcreate]; rfl, ?_, ?_, ?_⟩
        · refine valid_node.2 ⟨hparent, by rwa [hheight], hl, hr', hlow, ?_⟩
          intro k hk
          obtain rfl | hk := (hkeys k).1 hk
          · exact hlt
          · exact hhigh k hk
        · rw [height_node, height_node, hheight]
        · intro k
          simp only [keys_node, List.mem_append, List.mem_cons, hkeys]
          tauto

/-- The subtrees of the root are sound. -/
def BelowSound : Tree K → Prop
  | .nil => True
  | .node l _ _ r => Sound l ∧ Sound r

/-- A wrong balance that the way back to the root does not reach any more. -/
def Broken (t : Tree K) (heightChanged : ℤ) : Prop :=
  heightChanged = 0 ∧ ¬ Sound t ∨ ¬ BelowSound t

omit [LinearOrder K] in
theorem Broken.not_sound {heightChanged : ℤ} (h : Broken t heightChanged) : ¬ Sound t := by
  intro hsound
  obtain ⟨-, h⟩ | h := h
  · exact h hsound
  · cases t with
    | nil => exact h trivial
    | node l b e r => exact h hsound.2

omit [LinearOrder K] in
theorem balance_eq (b : ℤ) : balance b = 0 ∨ balance b = 1 := by
  rw [balance]
  split
  · exact .inl rfl
  · exact .inr rfl

section Broken

variable {heightChanged heightChanged' : ℤ} {changed changed' : Bool}

omit [LinearOrder K] in
theorem Broken.createdLeft (h : Broken l heightChanged)
    (hcreate : createdLeft b e r (l, heightChanged, changed) =
      some (t', heightChanged', changed')) : Broken t' heightChanged' := by
  have hnot : ¬ (balance b - 1 < -1) := by
    have := balance_eq b
    omega
  have hl := h.not_sound
  simp only [AVLTree.createdLeft, if_neg hnot] at hcreate
  split at hcreate
  all_goals
    cases hcreate
    exact .inr fun hbelow => hl hbelow.1

omit [LinearOrder K] in
theorem Broken.createdRight (h : Broken r heightChanged)
    (hcreate : createdRight l b e (r, heightChanged, changed) =
      some (t', heightChanged', changed')) : Broken t' heightChanged' := by
  have hr := h.not_sound
  simp only [AVLTree.createdRight] at hcreate
  split at hcreate
  · next hne =>
    split at hcreate
    · -- The rotation leaves the subtrees of the right child alone.
      have hbelow : ¬ BelowSound r := h.resolve_left fun hzero => hne hzero.1
      cases r with
      | nil => exact absurd trivial hbelow
      | node l₁ b₁ e₁ r₁ =>
        have hpos : balance b₁ ≥ 0 := by
          have := balance_eq b₁
          omega
        simp only [balanceRight, if_pos hpos, Option.map_some] at hcreate
        cases hcreate
        exact .inr fun hnew => hbelow ⟨sound_setParent.1 hnew.1.2.2, hnew.2⟩
    · cases hcreate
      exact .inr fun hbelow => hr hbelow.2
  · cases hcreate
    exact .inr fun hbelow => hr hbelow.2

end Broken

/-- A left subtree that grows at a node that is heavy on the left: no rotation is made. -/
theorem createdLeft_breaks {heightChanged heightChanged' : ℤ} {changed : Bool}
    (ht : Valid p (.node l (-1) e r)) (hgrows : grows key l) (hne : heightChanged ≠ 0)
    (hcreate : createdLeft (-1) e r (grown key e.key l, heightChanged, true) =
      some (t', heightChanged', changed)) : Broken t' heightChanged' := by
  obtain ⟨-, hfits, hl, -⟩ := valid_node.1 ht
  obtain ⟨-, hheight⟩ := grown_valid hl hgrows
  rw [createdLeft, if_pos hne] at hcreate
  cases hcreate
  refine .inl ⟨rfl, fun hsound => ?_⟩
  have hnew := hsound.1
  simp only [Fits, hheight] at hfits hnew
  omega

omit [LinearOrder K] in
/-- A right subtree that grows at a node that is not balanced: a single rotation is made. -/
theorem createdRight_eq {l₁ r₁ : Tree K} {b₁ : ℤ} {e₁ : Entry K} {heightChanged : ℤ} (hb : b ≠ 0)
    (hne : heightChanged ≠ 0) :
    createdRight l b e (.node l₁ b₁ e₁ r₁, heightChanged, true) =
      some (.node (.node l (1 - balance b₁) { e with parent := e₁.key } (setParent e.key l₁))
        (-balance (1 - balance b₁)) { e₁ with parent := e.parent } r₁,
        balance (-balance (1 - balance b₁)), true) := by
  have hpos : balance b₁ ≥ 0 := by
    have := balance_eq b₁
    omega
  have hone : balance b = 1 := if_neg hb
  rw [createdRight, if_pos hne]
  simp only [hone, balanceRight, if_pos hpos]
  rfl

theorem createdRight_breaks {heightChanged heightChanged' : ℤ} {changed : Bool}
    (ht : Valid p (.node l b e r)) (hgrows : grows key r) (hb : b ≠ 0)
    (hright : ¬ (b = 1 ∧ goesRight key r)) (hne : heightChanged ≠ 0)
    (hcreate : createdRight l b e (grown key e.key r, heightChanged, true) =
      some (t', heightChanged', changed)) : Broken t' heightChanged' := by
  obtain ⟨-, hfits, -, hr, -⟩ := valid_node.1 ht
  cases r with
  | nil =>
    rw [grown, createdRight_eq hb hne] at hcreate
    cases hcreate
    refine .inr fun hbelow => ?_
    have hnew := hbelow.1.1
    simp only [Fits, height_nil, height_setParent, balance, if_true] at hfits hnew
    omega
  | node rl rb re rr =>
    obtain ⟨-, hrfits, hrl, hrr, -⟩ := valid_node.1 hr
    rw [grows] at hgrows
    rw [grown] at hcreate
    split at hgrows
    · next hlt =>
      simp only [Bool.and_eq_true, decide_eq_true_eq] at hgrows
      obtain ⟨rfl, hgrl⟩ := hgrows
      obtain ⟨-, hheight⟩ := grown_valid hrl hgrl
      rw [if_pos hlt, createdRight_eq hb hne] at hcreate
      cases hcreate
      refine .inr fun hbelow => ?_
      have hnew := hbelow.1.1
      simp only [Fits, height_node, height_setParent, hheight, balance] at hfits hrfits hnew
      norm_num at hnew
      omega
    · next hnlt =>
      split at hgrows
      · next hlt =>
        simp only [Bool.and_eq_true, decide_eq_true_eq] at hgrows
        obtain ⟨rfl, hgrr⟩ := hgrows
        have hb1 : b ≠ 1 := fun hb1 => hright ⟨hb1, decide_eq_true hlt⟩
        rw [if_neg hnlt, createdRight_eq hb hne] at hcreate
        cases hcreate
        refine .inr fun hbelow => ?_
        have hnew := hbelow.1.1
        simp only [Fits, height_node, height_setParent, balance] at hfits hrfits hnew
        norm_num at hnew
        omega
      · cases hgrows

/-- Where the condition is not met, a wrong balance stays behind. -/
theorem createFrom_of_not_meets (ht : Valid p t) (hkey : key ∉ keys t)
    (hmeets : createMeets key t = false) {heightChanged : ℤ} {changed : Bool}
    (hcreate : createFrom key p t = some (t', heightChanged, changed)) :
    Broken t' heightChanged := by
  induction t generalizing p t' heightChanged changed with
  | nil => cases hmeets
  | node l b e r ihl ihr =>
    obtain ⟨hparent, hfits, hl, hr, hlow, hhigh⟩ := valid_node.1 ht
    rw [keys_node, List.mem_append, List.mem_cons, not_or, not_or] at hkey
    rw [createMeets] at hmeets
    rw [createFrom] at hcreate
    obtain hlt | heq | hlt := lt_trichotomy key e.key
    · rw [if_pos hlt] at hmeets hcreate
      cases hgl : grows key l with
      | true =>
        rw [hgl, if_pos rfl, decide_eq_false_iff_not] at hmeets
        obtain ⟨hc, hne, hgrown⟩ := createFrom_of_grows (p := some e.key) hgl
        rw [hgrown, Option.bind_some] at hcreate
        obtain rfl : b = -1 := by
          have := hfits.2
          omega
        exact createdLeft_breaks ht hgl hne hcreate
      | false =>
        rw [hgl] at hmeets
        obtain ⟨⟨l', hc, c⟩, hbelow, hafter⟩ := Option.bind_eq_some_iff.1 hcreate
        exact (ihl hl hkey.1 hmeets hbelow).createdLeft hafter
    · exact absurd heq hkey.2.1
    · rw [if_neg hlt.not_gt, if_pos hlt] at hcreate
      rw [if_neg hlt.not_gt, if_pos hlt] at hmeets
      cases hgr : grows key r with
      | true =>
        rw [hgr, if_pos rfl, Bool.or_eq_false_iff, decide_eq_false_iff_not] at hmeets
        obtain ⟨hc, hne, hgrown⟩ := createFrom_of_grows (p := some e.key) hgr
        rw [hgrown, Option.bind_some] at hcreate
        refine createdRight_breaks ht hgr hmeets.1 ?_ hne hcreate
        rintro ⟨hb, hright⟩
        simp [hb, hright] at hmeets
      | false =>
        rw [hgr] at hmeets
        obtain ⟨⟨r', hc, c⟩, hbelow, hafter⟩ := Option.bind_eq_some_iff.1 hcreate
        exact (ihr hr hkey.2.2 hmeets hbelow).createdRight hafter

end OMR.Compiler.AVLTree
