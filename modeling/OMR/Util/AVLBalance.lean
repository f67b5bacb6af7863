import OMR.Util.AVLTree
import Mathlib.Tactic

/-!
# Balance of the AVL tree

`WellBalanced` says that the balance stored in every node is the true difference
of the heights of its subtrees and that this difference is at most one. The
lemmas about `rotate`, `doubleRotate` and `rebalance` describe one step of the
way back to the root: the stored balances are right again, the traversal is
unchanged, and `heightChange` is the true change of the height.
-/

namespace OMR.Util.AVL

open OMR.Lib BinTree

variable {α κ : Type*}

/-- The stored balance names the true difference of two heights. -/
def Fits : Balance → ℕ → ℕ → Prop
  | .balanced, hl, hr => hl = hr
  | .leftHeavy, hl, hr => hl = hr + 1
  | .rightHeavy, hl, hr => hr = hl + 1

/-- Every stored balance is right, so no two subtree heights differ by more than one. -/
def WellBalanced (t : Tree α) : Prop := t.Tagged Fits

@[simp] theorem wellBalanced_nil : WellBalanced (.nil : Tree α) := trivial

@[simp] theorem wellBalanced_node {l r : Tree α} {b : Balance} {e : α} :
    WellBalanced (.node l b e r) ↔
      Fits b l.height r.height ∧ WellBalanced l ∧ WellBalanced r := Iff.rfl

@[simp] theorem fits_balanced {hl hr : ℕ} : Fits .balanced hl hr ↔ hl = hr := Iff.rfl

@[simp] theorem fits_leftHeavy {hl hr : ℕ} : Fits .leftHeavy hl hr ↔ hl = hr + 1 := Iff.rfl

@[simp] theorem fits_rightHeavy {hl hr : ℕ} : Fits .rightHeavy hl hr ↔ hr = hl + 1 := Iff.rfl

/-- A subtree that has just grown is a single node or leans to one side. -/
def Grown (t : Tree α) : Prop := getBalance t ≠ .balanced ∨ t.height = 1

/-- What a step back towards the root owes its caller: right balances, the
traversal it was given, and a `heightChange` that is the true change with
respect to the former height `h`. -/
structure Repaired (entries : List α) (h : ℕ) (heightChange : ℤ) (res : Tree α × ℤ) : Prop where
  wellBalanced : WellBalanced res.1
  inorder : res.1.inorder = entries
  height : (res.1.height : ℤ) = h + res.2
  change : res.2 = 0 ∨ res.2 = heightChange
  grown : res.2 = 1 → Grown res.1

section Rotations

variable {l r : Tree α} {b : Balance} {e : α} {hc d : ℤ} {h : ℕ}

/-- The former height `h` of a tree that has become two too high on a side whose
counterpart now has height `low`, by growing there or by shrinking opposite. -/
def FormerHeight (hc : ℤ) (h low : ℕ) : Prop :=
  (hc = 1 ∧ h = low + 2) ∨ (hc = -1 ∧ h = low + 3)

/-- Rotating the heavy left child up. A balanced heavy child is only met after shrinking. -/
theorem rotate_pos_repaired (hdir : 0 < d) (hl : WellBalanced l) (hr : WellBalanced r)
    (hh : l.height = r.height + 2) (hf : FormerHeight hc h r.height)
    (hlb : getBalance l ≠ .rightHeavy) (hgrown : hc = 1 → getBalance l ≠ .balanced) :
    Repaired (l.inorder ++ e :: r.inorder) h hc (rotate (.node l b e r) d hc) := by
  cases l with
  | nil => simp at hh
  | node ll lb le lr =>
    have hnd : ¬ d < 0 := by omega
    simp only [wellBalanced_node] at hl
    simp only [getBalance] at hlb hgrown
    simp only [rotate, hnd, if_false, ne_eq]
    cases lb with
    | rightHeavy => exact absurd rfl hlb
    | balanced =>
      -- only a deletion gets here, and it ends the propagation
      have hneg : hc = -1 ∧ h = r.height + 3 := by
        rcases hf with hf | hf
        · exact absurd rfl (hgrown hf.1)
        · exact hf
      simp only [fits_balanced, height_node] at hl hh
      refine ⟨?_, by simp, ?_, Or.inl rfl, by simp⟩
      · simp only [not_true_eq_false, if_false, wellBalanced_node, fits_rightHeavy,
          fits_leftHeavy, height_node]
        exact ⟨by omega, hl.2.1, by omega, hl.2.2, hr⟩
      · simp only [not_true_eq_false, if_false, height_node]
        omega
    | leftHeavy =>
      simp only [fits_leftHeavy, height_node] at hl hh
      simp only [reduceCtorEq, not_false_eq_true, if_true]
      refine ⟨?_, by simp, ?_, ?_, ?_⟩
      · simp only [wellBalanced_node, fits_balanced, height_node]
        exact ⟨by omega, hl.2.1, by omega, hl.2.2, hr⟩
      · rcases hf with ⟨rfl, rfl⟩ | ⟨rfl, rfl⟩ <;> simp <;> omega
      · rcases hf with ⟨rfl, -⟩ | ⟨rfl, -⟩ <;> simp
      · rcases hf with ⟨rfl, -⟩ | ⟨rfl, -⟩ <;> simp

/-- Rotating the heavy right child up: the mirror image of `rotate_pos_repaired`. -/
theorem rotate_neg_repaired (hdir : d < 0) (hl : WellBalanced l) (hr : WellBalanced r)
    (hh : r.height = l.height + 2) (hf : FormerHeight hc h l.height)
    (hrb : getBalance r ≠ .leftHeavy) (hgrown : hc = 1 → getBalance r ≠ .balanced) :
    Repaired (l.inorder ++ e :: r.inorder) h hc (rotate (.node l b e r) d hc) := by
  cases r with
  | nil => simp at hh
  | node rl rb re rr =>
    simp only [wellBalanced_node] at hr
    simp only [getBalance] at hrb hgrown
    simp only [rotate, hdir, if_true, ne_eq]
    cases rb with
    | leftHeavy => exact absurd rfl hrb
    | balanced =>
      have hneg : hc = -1 ∧ h = l.height + 3 := by
        rcases hf with hf | hf
        · exact absurd rfl (hgrown hf.1)
        · exact hf
      simp only [fits_balanced, height_node] at hr hh
      refine ⟨?_, by simp, ?_, Or.inl rfl, by simp⟩
      · simp only [not_true_eq_false, if_false, wellBalanced_node, fits_rightHeavy,
          fits_leftHeavy, height_node]
        exact ⟨by omega, ⟨by omega, hl, hr.2.1⟩, hr.2.2⟩
      · simp only [not_true_eq_false, if_false, height_node]
        omega
    | rightHeavy =>
      simp only [fits_rightHeavy, height_node] at hr hh
      simp only [reduceCtorEq, not_false_eq_true, if_true]
      refine ⟨?_, by simp, ?_, ?_, ?_⟩
      · simp only [wellBalanced_node, fits_balanced, height_node]
        exact ⟨by omega, ⟨by omega, hl, hr.2.1⟩, hr.2.2⟩
      · rcases hf with ⟨rfl, rfl⟩ | ⟨rfl, rfl⟩ <;> simp <;> omega
      · rcases hf with ⟨rfl, -⟩ | ⟨rfl, -⟩ <;> simp
      · rcases hf with ⟨rfl, -⟩ | ⟨rfl, -⟩ <;> simp

/-- Bringing the right child of the heavy left child up to the root. -/
theorem doubleRotate_pos_repaired (hdir : 0 < d) (hl : WellBalanced l) (hr : WellBalanced r)
    (hh : l.height = r.height + 2) (hf : FormerHeight hc h r.height)
    (hlb : getBalance l = .rightHeavy) :
    Repaired (l.inorder ++ e :: r.inorder) h hc (doubleRotate (.node l b e r) d hc) := by
  have hnd : ¬ d < 0 := by omega
  match l, hl, hlb with
  | .node ll .rightHeavy le .nil, hl, _ => simp at hl
  | .node ll .rightHeavy le (.node nl nb ne nr), hl, _ =>
    simp only [wellBalanced_node, fits_rightHeavy, height_node] at hl hh
    obtain ⟨hlh, hll, hnb, hnl, hnr⟩ := hl
    have hchange : (if hc > 0 then 0 else hc) = 0 ∨ (if hc > 0 then 0 else hc) = hc := by
      split <;> simp
    simp only [doubleRotate, hnd, if_false]
    refine ⟨?_, by simp, ?_, hchange, ?_⟩
    · cases nb <;> simp_all <;> omega
    · cases nb <;> simp only [fits_balanced, fits_leftHeavy, fits_rightHeavy] at hnb <;>
        rcases hf with ⟨rfl, rfl⟩ | ⟨rfl, rfl⟩ <;> simp <;> omega
    · rcases hf with ⟨rfl, -⟩ | ⟨rfl, -⟩ <;> simp

/-- The mirror image of `doubleRotate_pos_repaired`. -/
theorem doubleRotate_neg_repaired (hdir : d < 0) (hl : WellBalanced l) (hr : WellBalanced r)
    (hh : r.height = l.height + 2) (hf : FormerHeight hc h l.height)
    (hrb : getBalance r = .leftHeavy) :
    Repaired (l.inorder ++ e :: r.inorder) h hc (doubleRotate (.node l b e r) d hc) := by
  match r, hr, hrb with
  | .node .nil .leftHeavy re rr, hr, _ => simp at hr
  | .node (.node nl nb ne nr) .leftHeavy re rr, hr, _ =>
    simp only [wellBalanced_node, fits_leftHeavy, height_node] at hr hh
    obtain ⟨hrh, ⟨hnb, hnl, hnr⟩, hrr⟩ := hr
    have hchange : (if hc > 0 then 0 else hc) = 0 ∨ (if hc > 0 then 0 else hc) = hc := by
      split <;> simp
    simp only [doubleRotate, hdir, if_true]
    refine ⟨?_, by simp, ?_, hchange, ?_⟩
    · cases nb <;> simp_all <;> omega
    · cases nb <;> simp only [fits_balanced, fits_leftHeavy, fits_rightHeavy] at hnb <;>
        rcases hf with ⟨rfl, rfl⟩ | ⟨rfl, rfl⟩ <;> simp <;> omega
    · rcases hf with ⟨rfl, -⟩ | ⟨rfl, -⟩ <;> simp

end Rotations

/-- The values `heightChange` takes. -/
def UnitChange (hc : ℤ) : Prop := hc = 0 ∨ hc = 1 ∨ hc = -1

section Rebalance

variable {l r : Tree α} {b : Balance} {e : α} {hc d : ℤ} {h : ℕ}

/-- `rebalance` after the left subtree, formerly of height `h`, changed by `hc`. -/
theorem rebalance_left_repaired (hfit : Fits b h r.height) (hl : WellBalanced l)
    (hr : WellBalanced r) (hh : (l.height : ℤ) = h + hc) (hunit : UnitChange hc)
    (hdir : d < 0) (hgrown : hc = 1 → Grown l) :
    Repaired (l.inorder ++ e :: r.inorder) (max h r.height + 1) hc
      (rebalance (.node l b e r) d hc) := by
  rcases hunit with rfl | rfl | rfl
  · -- nothing changed below
    have hlh : l.height = h := by omega
    simp only [rebalance, if_true]
    refine ⟨?_, by simp, by simp [hlh], Or.inl rfl, by simp⟩
    simpa [hlh] using ⟨hfit, hl, hr⟩
  · -- the left side grew
    have hnd : ¬ (0 : ℤ) < d := by omega
    cases b with
    | balanced =>
      simp only [fits_balanced] at hfit
      have hrun : rebalance (.node l .balanced e r) d 1 = (.node l .leftHeavy e r, 1) := by
        simp [rebalance, hdir]
      rw [hrun]
      refine ⟨?_, by simp, ?_, Or.inr rfl, fun _ => Or.inl (by simp [getBalance])⟩
      · simpa using ⟨by omega, hl, hr⟩
      · simp only [height_node]
        omega
    | leftHeavy =>
      simp only [fits_leftHeavy] at hfit
      have hlr : l.height = r.height + 2 := by omega
      have hf : FormerHeight 1 (max h r.height + 1) r.height := Or.inl ⟨rfl, by omega⟩
      have hlean : getBalance l ≠ .balanced := by
        rcases hgrown rfl with hb | h1
        · exact hb
        · omega
      by_cases hrh : getBalance l = .rightHeavy
      · have hrun : rebalance (.node l .leftHeavy e r) d 1 =
            doubleRotate (.node l .leftHeavy e r) (-d) 1 := by
          simp [rebalance, hdir, hrh]
        rw [hrun]
        exact doubleRotate_pos_repaired (by omega) hl hr hlr hf hrh
      · have hrun : rebalance (.node l .leftHeavy e r) d 1 =
            rotate (.node l .leftHeavy e r) (-d) 1 := by
          simp [rebalance, hdir, hrh, hnd]
        rw [hrun]
        exact rotate_pos_repaired (by omega) hl hr hlr hf hrh fun _ => hlean
    | rightHeavy =>
      simp only [fits_rightHeavy] at hfit
      have hrun : rebalance (.node l .rightHeavy e r) d 1 = (.node l .balanced e r, 0) := by
        simp [rebalance, hdir]
      rw [hrun]
      refine ⟨?_, by simp, ?_, Or.inl rfl, by simp⟩
      · simpa using ⟨by omega, hl, hr⟩
      · simp only [height_node]
        omega
  · -- the left side shrank, so the right side is the heavy one
    have hnd : ¬ (0 : ℤ) < d := by omega
    have hflip : ¬ -d < 0 := by omega
    have hpos : 0 < -d := by omega
    cases b with
    | balanced =>
      simp only [fits_balanced] at hfit
      have hrun : rebalance (.node l .balanced e r) d (-1) = (.node l .rightHeavy e r, 0) := by
        simp [rebalance, hnd]
      rw [hrun]
      refine ⟨?_, by simp, ?_, Or.inl rfl, by simp⟩
      · simpa using ⟨by omega, hl, hr⟩
      · simp only [height_node]
        omega
    | leftHeavy =>
      simp only [fits_leftHeavy] at hfit
      have hrun : rebalance (.node l .leftHeavy e r) d (-1) = (.node l .balanced e r, -1) := by
        simp [rebalance, hnd]
      rw [hrun]
      refine ⟨?_, by simp, ?_, Or.inr rfl, by simp⟩
      · simpa using ⟨by omega, hl, hr⟩
      · simp only [height_node]
        omega
    | rightHeavy =>
      simp only [fits_rightHeavy] at hfit
      have hrl : r.height = l.height + 2 := by omega
      have hf : FormerHeight (-1) (max h r.height + 1) l.height := Or.inr ⟨rfl, by omega⟩
      by_cases hlh : getBalance r = .leftHeavy
      · have hrun : rebalance (.node l .rightHeavy e r) d (-1) =
            doubleRotate (.node l .rightHeavy e r) d (-1) := by
          simp [rebalance, hdir, hlh, hnd]
        rw [hrun]
        exact doubleRotate_neg_repaired hdir hl hr hrl hf hlh
      · have hrun : rebalance (.node l .rightHeavy e r) d (-1) =
            rotate (.node l .rightHeavy e r) d (-1) := by
          simp [rebalance, hlh, hnd]
        rw [hrun]
        exact rotate_neg_repaired hdir hl hr hrl hf hlh (by simp)

/-- `rebalance` after the right subtree, formerly of height `h`, changed by `hc`. -/
theorem rebalance_right_repaired (hfit : Fits b l.height h) (hl : WellBalanced l)
    (hr : WellBalanced r) (hh : (r.height : ℤ) = h + hc) (hunit : UnitChange hc)
    (hdir : 0 < d) (hgrown : hc = 1 → Grown r) :
    Repaired (l.inorder ++ e :: r.inorder) (max l.height h + 1) hc
      (rebalance (.node l b e r) d hc) := by
  have hnd : ¬ d < 0 := by omega
  rcases hunit with rfl | rfl | rfl
  · have hrh : r.height = h := by omega
    simp only [rebalance, if_true]
    refine ⟨?_, by simp, by simp [hrh], Or.inl rfl, by simp⟩
    simpa [hrh] using ⟨hfit, hl, hr⟩
  · -- the right side grew
    cases b with
    | balanced =>
      simp only [fits_balanced] at hfit
      have hrun : rebalance (.node l .balanced e r) d 1 = (.node l .rightHeavy e r, 1) := by
        simp [rebalance, hnd]
      rw [hrun]
      refine ⟨?_, by simp, ?_, Or.inr rfl, fun _ => Or.inl (by simp [getBalance])⟩
      · simpa using ⟨by omega, hl, hr⟩
      · simp only [height_node]
        omega
    | leftHeavy =>
      simp only [fits_leftHeavy] at hfit
      have hrun : rebalance (.node l .leftHeavy e r) d 1 = (.node l .balanced e r, 0) := by
        simp [rebalance, hnd]
      rw [hrun]
      refine ⟨?_, by simp, ?_, Or.inl rfl, by simp⟩
      · simpa using ⟨by omega, hl, hr⟩
      · simp only [height_node]
        omega
    | rightHeavy =>
      simp only [fits_rightHeavy] at hfit
      have hrl : r.height = l.height + 2 := by omega
      have hf : FormerHeight 1 (max l.height h + 1) l.height := Or.inl ⟨rfl, by omega⟩
      have hlean : getBalance r ≠ .balanced := by
        rcases hgrown rfl with hb | h1
        · exact hb
        · omega
      by_cases hlh : getBalance r = .leftHeavy
      · have hrun : rebalance (.node l .rightHeavy e r) d 1 =
            doubleRotate (.node l .rightHeavy e r) (-d) 1 := by
          simp [rebalance, hnd, hlh, hdir]
        rw [hrun]
        exact doubleRotate_neg_repaired (by omega) hl hr hrl hf hlh
      · have hrun : rebalance (.node l .rightHeavy e r) d 1 =
            rotate (.node l .rightHeavy e r) (-d) 1 := by
          simp [rebalance, hnd, hlh]
        rw [hrun]
        exact rotate_neg_repaired (by omega) hl hr hrl hf hlh fun _ => hlean
  · -- the right side shrank, so the left side is the heavy one
    have hflip : -d < 0 := by omega
    cases b with
    | balanced =>
      simp only [fits_balanced] at hfit
      have hrun : rebalance (.node l .balanced e r) d (-1) = (.node l .leftHeavy e r, 0) := by
        simp [rebalance, hdir]
      rw [hrun]
      refine ⟨?_, by simp, ?_, Or.inl rfl, by simp⟩
      · simpa using ⟨by omega, hl, hr⟩
      · simp only [height_node]
        omega
    | leftHeavy =>
      simp only [fits_leftHeavy] at hfit
      have hlr : l.height = r.height + 2 := by omega
      have hf : FormerHeight (-1) (max l.height h + 1) r.height := Or.inr ⟨rfl, by omega⟩
      by_cases hrh : getBalance l = .rightHeavy
      · have hrun : rebalance (.node l .leftHeavy e r) d (-1) =
            doubleRotate (.node l .leftHeavy e r) d (-1) := by
          simp [rebalance, hrh, hdir]
        rw [hrun]
        exact doubleRotate_pos_repaired hdir hl hr hlr hf hrh
      · have hrun : rebalance (.node l .leftHeavy e r) d (-1) =
            rotate (.node l .leftHeavy e r) d (-1) := by
          simp [rebalance, hrh, hdir, hnd]
        rw [hrun]
        exact rotate_pos_repaired hdir hl hr hlr hf hrh (by simp)
    | rightHeavy =>
      simp only [fits_rightHeavy] at hfit
      have hrun : rebalance (.node l .rightHeavy e r) d (-1) = (.node l .balanced e r, -1) := by
        simp [rebalance, hdir]
      rw [hrun]
      refine ⟨?_, by simp, ?_, Or.inr rfl, by simp⟩
      · simpa using ⟨by omega, hl, hr⟩
      · simp only [height_node]
        omega

end Rebalance

end OMR.Util.AVL
