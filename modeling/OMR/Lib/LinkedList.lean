import Mathlib.Tactic
import Mathlib.Logic.Function.Basic

/-!
# Back links of a doubly linked list

A doubly linked list is the list of its nodes in the order of the forward links
together with a function that gives each node's back link. `BackLinked` says that the
back links follow the order; the lemmas say how they are kept up when a node enters at
the front or leaves from any place.
-/

namespace OMR.Lib

variable {ι : Type*}

/-- Each node of the list points back to the one before it, the first to `before`. -/
def BackLinked (prev : ι → Option ι) : Option ι → List ι → Prop
  | _, [] => True
  | before, a :: rest => prev a = before ∧ BackLinked prev (some a) rest

/-- The back links after the first node of a list, if there is one, has been made to
point to `before`. -/
def relinkHead [DecidableEq ι] (prev : ι → Option ι) (before : Option ι) : List ι → ι → Option ι
  | [] => prev
  | a :: _ => Function.update prev a before

theorem relinkHead_of_not_mem [DecidableEq ι] (prev : ι → Option ι) (before : Option ι)
    {l : List ι} {a : ι} (ha : a ∉ l) : relinkHead prev before l a = prev a := by
  cases l with
  | nil => rfl
  | cons b rest => exact Function.update_of_ne (List.ne_of_not_mem_cons ha) ..

theorem relinkHead_of_head [DecidableEq ι] (prev : ι → Option ι) (before : Option ι)
    {l : List ι} {a : ι} (ha : l.head? = some a) : relinkHead prev before l a = before := by
  cases l with
  | nil => cases ha
  | cons b rest =>
    cases ha
    exact Function.update_self ..

namespace BackLinked

variable {prev prev' : ι → Option ι} {before : Option ι}

theorem congr {l : List ι} (h : BackLinked prev before l)
    (heq : ∀ a ∈ l, prev' a = prev a) : BackLinked prev' before l := by
  induction l generalizing before with
  | nil => trivial
  | cons a rest ih =>
    constructor
    · exact (heq a (List.mem_cons_self ..)).trans h.1
    · exact ih h.2 fun b hb => heq b (List.mem_cons_of_mem _ hb)

/-- Of a list without repetitions, the links behind its first node do not change when
that node's own link does. -/
theorem relink [DecidableEq ι] {l : List ι} (h : BackLinked prev before l) (hn : l.Nodup)
    (new : Option ι) : BackLinked (relinkHead prev new l) new l := by
  cases l with
  | nil => trivial
  | cons a rest =>
    have hne : ∀ b ∈ rest, b ≠ a := fun b hb hba => (List.nodup_cons.1 hn).1 (hba ▸ hb)
    constructor
    · exact Function.update_self ..
    · exact h.2.congr fun b hb => Function.update_of_ne (hne b hb) ..

/-- A node's link is the node before it, wherever the list is cut. -/
theorem prev_eq {l₁ l₂ : List ι} {a : ι} (h : BackLinked prev before (l₁ ++ a :: l₂)) :
    prev a = (l₁.getLast?.or before) := by
  induction l₁ generalizing before with
  | nil => exact h.1
  | cons b rest ih =>
    rw [ih h.2]
    cases hr : rest.getLast? with
    | none => simp [List.getLast?_cons, List.getLast?_eq_none_iff.1 hr]
    | some c => simp [List.getLast?_cons, hr]

/-- A node leaves: the one behind it takes over its link. -/
theorem unlink [DecidableEq ι] {l₁ l₂ : List ι} {a : ι}
    (h : BackLinked prev before (l₁ ++ a :: l₂)) (hn : (l₁ ++ a :: l₂).Nodup) :
    BackLinked (relinkHead prev (prev a) l₂) before (l₁ ++ l₂) := by
  induction l₁ generalizing before with
  | nil =>
    rw [h.1]
    exact h.2.relink (List.nodup_cons.1 hn).2 _
  | cons b rest ih =>
    obtain ⟨hb, hrest⟩ := List.nodup_cons.1 hn
    refine ⟨?_, ih h.2 hrest⟩
    cases l₂ with
    | nil => exact h.1
    | cons c l₂ =>
      have hbc : b ≠ c := fun hbc => hb (by simp [hbc])
      exact (Function.update_of_ne hbc ..).trans h.1

theorem append_iff {l₁ l₂ : List ι} : BackLinked prev before (l₁ ++ l₂) ↔
    BackLinked prev before l₁ ∧ BackLinked prev (l₁.getLast?.or before) l₂ := by
  induction l₁ generalizing before with
  | nil => exact (and_iff_right trivial).symm
  | cons a rest ih =>
    have hlast : (a :: rest).getLast?.or before = rest.getLast?.or (some a) := by
      cases hr : rest.getLast? with
      | none => simp [List.getLast?_eq_none_iff.1 hr]
      | some c => simp [List.getLast?_cons, hr]
    rw [hlast]
    change prev a = before ∧ BackLinked prev (some a) (rest ++ l₂) ↔
      (prev a = before ∧ BackLinked prev (some a) rest) ∧ _
    rw [ih, and_assoc]

end BackLinked

/-- Each node of the list points to the next one, the last to `after`. -/
def ForwardLinked (next : ι → Option ι) (after : Option ι) : List ι → Prop
  | [] => True
  | a :: rest => next a = rest.head?.or after ∧ ForwardLinked next after rest

namespace ForwardLinked

variable {next next' : ι → Option ι} {after : Option ι}

theorem congr {l : List ι} (h : ForwardLinked next after l) (heq : ∀ a ∈ l, next' a = next a) :
    ForwardLinked next' after l := by
  induction l with
  | nil => trivial
  | cons a rest ih =>
    constructor
    · exact (heq a (List.mem_cons_self ..)).trans h.1
    · exact ih h.2 fun b hb => heq b (List.mem_cons_of_mem _ hb)

theorem append_iff {l₁ l₂ : List ι} : ForwardLinked next after (l₁ ++ l₂) ↔
    ForwardLinked next (l₂.head?.or after) l₁ ∧ ForwardLinked next after l₂ := by
  induction l₁ with
  | nil => exact (and_iff_right trivial).symm
  | cons a rest ih =>
    change next a = (rest ++ l₂).head?.or after ∧ ForwardLinked next after (rest ++ l₂) ↔
      (next a = rest.head?.or (l₂.head?.or after) ∧ _) ∧ _
    rw [ih, List.head?_append, Option.or_assoc, and_assoc]

/-- The last node is made to point elsewhere. -/
theorem retarget [DecidableEq ι] {l : List ι} {a : ι} (h : ForwardLinked next after l)
    (hn : l.Nodup) (ha : l.getLast? = some a) (new : Option ι) :
    ForwardLinked (Function.update next a new) new l := by
  obtain ⟨init, rfl⟩ := List.getLast?_eq_some_iff.1 ha
  obtain ⟨hinit, -⟩ := append_iff.1 h
  have hne : ∀ b ∈ init, b ≠ a := fun b hb hba =>
    (List.disjoint_of_nodup_append hn) hb (by simp [hba])
  refine append_iff.2 ⟨hinit.congr fun b hb => Function.update_of_ne (hne b hb) .., ?_, trivial⟩
  exact Function.update_self ..

/-- The links determine the list from its first node on. -/
theorem eq_of_head {l l' : List ι} (h : ForwardLinked next none l) (h' : ForwardLinked next none l')
    (hhead : l.head? = l'.head?) : l = l' := by
  induction l generalizing l' with
  | nil => exact (List.head?_eq_none_iff.1 hhead.symm).symm
  | cons a rest ih =>
    obtain ⟨rest', rfl⟩ := List.head?_eq_some_iff.1 hhead.symm
    have hrest : rest.head? = rest'.head? := by
      have hnext := h.1.symm.trans h'.1
      rwa [Option.or_none, Option.or_none] at hnext
    rw [ih h.2 h'.2 hrest]

end ForwardLinked

/-- A list that is linked in both directions, with ends that point to nothing. -/
structure DoublyLinked (next prev : ι → Option ι) (l : List ι) : Prop where
  forward : ForwardLinked next none l
  backward : BackLinked prev none l

namespace DoublyLinked

variable {next prev next' prev' : ι → Option ι}

theorem nil : DoublyLinked next prev [] := ⟨trivial, trivial⟩

theorem congr {l : List ι} (h : DoublyLinked next prev l) (hnext : ∀ a ∈ l, next' a = next a)
    (hprev : ∀ a ∈ l, prev' a = prev a) : DoublyLinked next' prev' l :=
  ⟨h.forward.congr hnext, h.backward.congr hprev⟩

/-- Two lists become one when the last node of the first and the first node of the second
are made to point to each other. -/
theorem splice [DecidableEq ι] {l₁ l₂ : List ι} {a b : ι} (h₁ : DoublyLinked next prev l₁)
    (h₂ : DoublyLinked next prev l₂) (hn : (l₁ ++ l₂).Nodup) (ha : l₁.getLast? = some a)
    (hb : l₂.head? = some b) :
    DoublyLinked (Function.update next a (some b)) (Function.update prev b (some a)) (l₁ ++ l₂) := by
  have hdisjoint := List.disjoint_of_nodup_append hn
  have ha₂ : ∀ x ∈ l₂, x ≠ a := fun x hx hxa =>
    hdisjoint (List.mem_of_getLast? ha) (hxa ▸ hx)
  have hb₁ : ∀ x ∈ l₁, x ≠ b := fun x hx hxb =>
    hdisjoint hx (hxb ▸ List.mem_of_head? hb)
  constructor
  · refine ForwardLinked.append_iff.2 ⟨?_, ?_⟩
    · rw [hb]
      exact h₁.forward.retarget hn.of_append_left ha (some b)
    · exact h₂.forward.congr fun x hx => Function.update_of_ne (ha₂ x hx) ..
  · refine BackLinked.append_iff.2 ⟨?_, ?_⟩
    · exact h₁.backward.congr fun x hx => Function.update_of_ne (hb₁ x hx) ..
    · rw [ha]
      have hrelink := h₂.backward.relink hn.of_append_right (some a)
      obtain ⟨rest, rfl⟩ := List.head?_eq_some_iff.1 hb
      exact hrelink

end DoublyLinked

end OMR.Lib
