import Mathlib.Tactic
import Mathlib.Data.List.TakeWhile
import Mathlib.Order.Interval.Set.Basic
import Mathlib.Order.CompletePartialOrder

/-!
# Address-ordered lists of extents

An extent is a half-open range of addresses. The lists here are kept in address
order and do not overlap; the lemmas say how such a list is cut, how an extent
of it is replaced by parts of it, and how a new extent enters it.
-/

namespace OMR.Lib

/-- The addresses `[base, base + size)`. -/
@[ext] structure Extent where
  base : ℕ
  size : ℕ
deriving DecidableEq, Repr

namespace Extent

/-- The first address after an extent. -/
def top (e : Extent) : ℕ := e.base + e.size

/-- The addresses of an extent. -/
def bytes (e : Extent) : Set ℕ := Set.Ico e.base e.top

/-- Two extents without a common address, one after the other. -/
def Apart (a b : Extent) : Prop := a.top ≤ b.base ∨ b.top ≤ a.base

/-- One extent inside another. -/
def Within (a b : Extent) : Prop := b.base ≤ a.base ∧ a.top ≤ b.top

instance (a b : Extent) : Decidable (Apart a b) := inferInstanceAs (Decidable (_ ∨ _))

instance (a b : Extent) : Decidable (Within a b) := inferInstanceAs (Decidable (_ ∧ _))

theorem within_refl (e : Extent) : e.Within e := ⟨le_rfl, le_rfl⟩

theorem mem_bytes {e : Extent} {a : ℕ} : a ∈ e.bytes ↔ e.base ≤ a ∧ a < e.top := Iff.rfl

theorem Within.bytes_subset {a b : Extent} (h : a.Within b) : a.bytes ⊆ b.bytes := by
  intro x hx
  obtain ⟨hlo, hhi⟩ := mem_bytes.1 hx
  exact mem_bytes.2 ⟨h.1.trans hlo, hhi.trans_le h.2⟩

end Extent

/-- Non-empty extents, each of which ends before the next one begins. -/
structure AddressOrdered (l : List Extent) : Prop where
  size_pos : ∀ e ∈ l, 0 < e.size
  apart : l.Pairwise fun a b => a.top ≤ b.base

instance (l : List Extent) : Decidable (AddressOrdered l) :=
  decidable_of_iff ((∀ e ∈ l, 0 < e.size) ∧ l.Pairwise fun a b => a.top ≤ b.base)
    ⟨fun h => ⟨h.1, h.2⟩, fun h => ⟨h.size_pos, h.apart⟩⟩

/-- The sum of the sizes of a list. -/
def totalSize (l : List Extent) : ℕ := (l.map Extent.size).sum

/-- The addresses of a list. -/
def bytesOf (l : List Extent) : Set ℕ := {a | ∃ e ∈ l, a ∈ e.bytes}

@[simp] theorem totalSize_nil : totalSize [] = 0 := rfl

@[simp] theorem totalSize_cons (e : Extent) (l : List Extent) :
    totalSize (e :: l) = e.size + totalSize l := by
  simp [totalSize]

@[simp] theorem totalSize_append (l l' : List Extent) :
    totalSize (l ++ l') = totalSize l + totalSize l' := by
  simp [totalSize]

@[simp] theorem bytesOf_nil : bytesOf [] = ∅ := by
  simp [bytesOf]

@[simp] theorem bytesOf_cons (e : Extent) (l : List Extent) :
    bytesOf (e :: l) = e.bytes ∪ bytesOf l := by
  ext a
  simp [bytesOf]

@[simp] theorem bytesOf_append (l l' : List Extent) :
    bytesOf (l ++ l') = bytesOf l ∪ bytesOf l' := by
  ext a
  simp only [bytesOf, List.mem_append, Set.mem_ofPred_eq, Set.mem_union]
  constructor
  · rintro ⟨e, he | he, ha⟩
    · exact Or.inl ⟨e, he, ha⟩
    · exact Or.inr ⟨e, he, ha⟩
  · rintro (⟨e, he, ha⟩ | ⟨e, he, ha⟩)
    · exact ⟨e, Or.inl he, ha⟩
    · exact ⟨e, Or.inr he, ha⟩

namespace AddressOrdered

variable {l xs ys m m' : List Extent} {e x : Extent}

@[simp] theorem nil : AddressOrdered [] := ⟨by simp, List.Pairwise.nil⟩

theorem singleton (h : 0 < e.size) : AddressOrdered [e] := ⟨by simpa using h, by simp⟩

theorem append_iff : AddressOrdered (xs ++ ys) ↔
    AddressOrdered xs ∧ AddressOrdered ys ∧ ∀ a ∈ xs, ∀ b ∈ ys, a.top ≤ b.base := by
  constructor
  · rintro ⟨hpos, hap⟩
    obtain ⟨hx, hy, hxy⟩ := List.pairwise_append.1 hap
    exact ⟨⟨fun e he => hpos e (List.mem_append_left _ he), hx⟩,
      ⟨fun e he => hpos e (List.mem_append_right _ he), hy⟩, hxy⟩
  · rintro ⟨hx, hy, hxy⟩
    refine ⟨fun e he => ?_, List.pairwise_append.2 ⟨hx.apart, hy.apart, hxy⟩⟩
    rcases List.mem_append.1 he with he | he
    · exact hx.size_pos e he
    · exact hy.size_pos e he

theorem cons_iff : AddressOrdered (e :: l) ↔
    0 < e.size ∧ AddressOrdered l ∧ ∀ b ∈ l, e.top ≤ b.base := by
  rw [← List.singleton_append, append_iff]
  constructor
  · rintro ⟨h, hl, hel⟩
    exact ⟨h.size_pos e (by simp), hl, hel e (by simp)⟩
  · rintro ⟨h, hl, hel⟩
    exact ⟨singleton h, hl, by simpa using hel⟩

theorem left (h : AddressOrdered (xs ++ ys)) : AddressOrdered xs := (append_iff.1 h).1

theorem right (h : AddressOrdered (xs ++ ys)) : AddressOrdered ys := (append_iff.1 h).2.1

/-- Parts of the middle of a list may take its place. -/
theorem replace {l m n r : List Extent} (h : AddressOrdered (l ++ (m ++ r))) (hm : AddressOrdered n)
    (hin : ∀ e' ∈ n, ∃ e ∈ m, e'.Within e) : AddressOrdered (l ++ (n ++ r)) := by
  obtain ⟨hx, hmy, hxmy⟩ := append_iff.1 h
  obtain ⟨-, hy, hmy⟩ := append_iff.1 hmy
  refine append_iff.2 ⟨hx, append_iff.2 ⟨hm, hy, ?_⟩, ?_⟩
  · intro a ha b hb
    obtain ⟨e, he, hae⟩ := hin a ha
    exact hae.2.trans (hmy e he b hb)
  · intro a ha b hb
    rcases List.mem_append.1 hb with hb | hb
    · obtain ⟨e, he, hbe⟩ := hin b hb
      exact (hxmy a ha e (List.mem_append_left _ he)).trans hbe.1
    · exact hxmy a ha b (List.mem_append_right _ hb)

/-- A list that fits between two parts of a list may be put there. -/
theorem splice (h : AddressOrdered (xs ++ ys)) (hm : AddressOrdered m)
    (hlo : ∀ a ∈ xs, ∀ b ∈ m, a.top ≤ b.base) (hhi : ∀ a ∈ m, ∀ b ∈ ys, a.top ≤ b.base) :
    AddressOrdered (xs ++ (m ++ ys)) := by
  obtain ⟨hx, hy, hxy⟩ := append_iff.1 h
  refine append_iff.2 ⟨hx, append_iff.2 ⟨hm, hy, hhi⟩, fun a ha b hb => ?_⟩
  rcases List.mem_append.1 hb with hb | hb
  · exact hlo a ha b hb
  · exact hxy a ha b hb

/-- Two neighbours that touch may become one. -/
theorem fuse {a b : Extent} (h : AddressOrdered (xs ++ ([a, b] ++ ys))) (hab : a.top = b.base) :
    AddressOrdered (xs ++ (⟨a.base, a.size + b.size⟩ :: ys)) := by
  obtain ⟨hx, haby, hxab⟩ := append_iff.1 h
  obtain ⟨ha, hby, -⟩ := cons_iff.1 haby
  obtain ⟨-, hy, hb⟩ := cons_iff.1 hby
  refine append_iff.2 ⟨hx, cons_iff.2 ⟨Nat.add_pos_left ha _, hy, fun c hc => ?_⟩, ?_⟩
  · have := hb c hc
    simp only [Extent.top] at this hab ⊢
    omega
  · intro c hc d hd
    rcases List.mem_cons.1 hd with rfl | hd
    · exact hxab c hc a (by simp)
    · exact hxab c hc d (by simp [hd])

/-- Before and after one extent of the list. -/
theorem around (h : AddressOrdered (xs ++ e :: ys)) :
    (∀ a ∈ xs, a.top ≤ e.base) ∧ ∀ b ∈ ys, e.top ≤ b.base := by
  obtain ⟨-, hy, hxy⟩ := append_iff.1 h
  exact ⟨fun a ha => hxy a ha e (by simp), (cons_iff.1 hy).2.2⟩

/-- The base of an extent identifies it. -/
theorem eq_of_base_eq (h : AddressOrdered l) {a b : Extent} (ha : a ∈ l) (hb : b ∈ l)
    (hab : a.base = b.base) : a = b := by
  induction l with
  | nil => simp at ha
  | cons e l ih =>
    obtain ⟨hpos, hl, hel⟩ := cons_iff.1 h
    have hlt : ∀ c ∈ l, e.base ≠ c.base := by
      intro c hc
      have := hel c hc
      simp only [Extent.top] at this
      omega
    rcases List.mem_cons.1 ha with hae | ha' <;> rcases List.mem_cons.1 hb with hbe | hb'
    · rw [hae, hbe]
    · exact absurd (hae ▸ hab) (hlt b hb')
    · exact absurd (hbe ▸ hab).symm (hlt a ha')
    · exact ih hl ha' hb'

/-- The part of a list before a cut by address lies below the part after it. -/
theorem cut_lt (h : AddressOrdered (xs ++ ys)) {a b : Extent} (ha : a ∈ xs) (hb : b ∈ ys) :
    a.base < b.base := by
  obtain ⟨hx, -, hxy⟩ := append_iff.1 h
  have hpos := hx.size_pos a ha
  have := hxy a ha b hb
  simp only [Extent.top] at this
  omega

/-- When the first bytes of an extent are taken, the rest of the list has none of them. -/
theorem bytesOf_take (h : AddressOrdered (xs ++ e :: ys)) {n : ℕ} (hn : n ≤ e.size)
    (hm : ∀ x ∈ m', x.base = e.base + n ∧ x.top = e.top) :
    Disjoint (bytesOf (xs ++ (m' ++ ys))) (Set.Ico e.base (e.base + n)) ∧
      bytesOf (xs ++ (m' ++ ys)) ⊆ bytesOf (xs ++ e :: ys) := by
  have htop : e.top = e.base + e.size := rfl
  obtain ⟨hbefore, hafter⟩ := h.around
  refine ⟨Set.disjoint_left.2 ?_, ?_⟩
  · rintro a ⟨x, hx, hax⟩ ⟨hlo, hhi⟩
    rw [Extent.mem_bytes] at hax
    simp only [List.mem_append] at hx
    rcases hx with hx | hx | hx
    · have := hbefore x hx
      omega
    · have := hm x hx
      omega
    · have := hafter x hx
      omega
  · rintro a ⟨x, hx, hax⟩
    simp only [List.mem_append] at hx
    rcases hx with hx | hx | hx
    · exact ⟨x, by simp [hx], hax⟩
    · obtain ⟨hbase, hxtop⟩ := hm x hx
      rw [Extent.mem_bytes] at hax
      exact ⟨e, by simp, Extent.mem_bytes.2 ⟨by omega, by omega⟩⟩
    · exact ⟨x, by simp [hx], hax⟩

end AddressOrdered

theorem Extent.Apart.symm {a b : Extent} (h : a.Apart b) : b.Apart a := Or.symm h

/-- Parts of disjoint extents are disjoint. -/
theorem Extent.Apart.mono {a b x y : Extent} (h : x.Apart y) (ha : a.Within x)
    (hb : b.Within y) : a.Apart b :=
  h.imp (fun hxy => (ha.2.trans hxy).trans hb.1) fun hyx => (hb.2.trans hyx).trans ha.1

/-- Extents without a common address are apart. -/
theorem Extent.apart_of_disjoint {a b : Extent} (h : Disjoint a.bytes b.bytes) (ha : 0 < a.size)
    (hb : 0 < b.size) : a.Apart b := by
  by_contra hnot
  simp only [Extent.Apart, not_or, not_le, Extent.top] at hnot
  have hina : max a.base b.base ∈ a.bytes :=
    Extent.mem_bytes.2 ⟨by omega, by simp only [Extent.top]; omega⟩
  have hinb : max a.base b.base ∈ b.bytes :=
    Extent.mem_bytes.2 ⟨by omega, by simp only [Extent.top]; omega⟩
  exact Set.disjoint_left.1 h hina hinb

theorem Extent.Apart.disjoint {a b : Extent} (h : a.Apart b) : Disjoint a.bytes b.bytes := by
  refine Set.disjoint_left.2 fun x hx hy => ?_
  rw [Extent.mem_bytes] at hx hy
  simp only [Extent.Apart] at h
  omega

/-- An extent apart from another one that does not begin after it ends before it. -/
theorem Extent.Apart.top_le {a x : Extent} (h : a.Apart x) (hx : 0 < x.size)
    (hle : a.base ≤ x.base) : a.top ≤ x.base := by
  rcases h with h | h
  · exact h
  · simp only [Extent.top] at h ⊢
    omega

/-- A walk stops at the first element that it may not pass. -/
theorem not_of_dropWhile_eq_cons {α : Type*} {p : α → Bool} {l rest : List α} {a : α}
    (h : l.dropWhile p = a :: rest) : p a = false := by
  have := List.head_dropWhile_not p (l := l) (by simp [h])
  simpa [h] using this

/-- What a walk up to an address leaves lies above that address. -/
theorem AddressOrdered.lt_of_mem_dropWhile {l : List Extent} {x : ℕ} (h : AddressOrdered l)
    {b : Extent} (hb : b ∈ l.dropWhile fun e => e.base ≤ x) : x < b.base := by
  induction l with
  | nil => simp at hb
  | cons e l ih =>
    obtain ⟨-, hl, hel⟩ := AddressOrdered.cons_iff.1 h
    by_cases he : e.base ≤ x
    · rw [List.dropWhile_cons_of_pos (by simpa using he)] at hb
      exact ih hl hb
    · rw [List.dropWhile_cons_of_neg (by simpa using he)] at hb
      rcases List.mem_cons.1 hb with rfl | hb
      · omega
      · have := hel b hb
        simp only [Extent.top] at this
        omega

/-- What a walk up to an address has passed does not begin above it. -/
theorem le_of_mem_takeWhile {l : List Extent} {x : ℕ} {a : Extent}
    (ha : a ∈ l.takeWhile fun e => e.base ≤ x) : a.base ≤ x := by
  simpa using List.mem_takeWhile_imp ha

/-- A disjoint extent finds its place where the bases cross its own. -/
theorem AddressOrdered.insert {xs ys : List Extent} {x : Extent}
    (h : AddressOrdered (xs ++ ys)) (hx : 0 < x.size) (hlo : ∀ a ∈ xs, a.base ≤ x.base)
    (hhi : ∀ b ∈ ys, x.base ≤ b.base) (hap : ∀ e ∈ xs ++ ys, x.Apart e) :
    AddressOrdered (xs ++ ([x] ++ ys)) := by
  refine h.splice (AddressOrdered.singleton hx) ?_ ?_
  · intro a ha b hb
    rw [List.mem_singleton.1 hb]
    exact (hap a (List.mem_append_left _ ha)).symm.top_le hx (hlo a ha)
  · intro a ha b hb
    rw [List.mem_singleton.1 ha]
    exact (hap b (List.mem_append_right _ hb)).top_le
      (h.right.size_pos b hb) (hhi b hb)

/-- The size of the largest extent of a list, 0 for an empty one. -/
def largestSize : List Extent → ℕ
  | [] => 0
  | e :: l => max e.size (largestSize l)

section LargestSize

variable {l l' : List Extent} {e : Extent}

@[simp] theorem largestSize_nil : largestSize [] = 0 := rfl

@[simp] theorem largestSize_cons : largestSize (e :: l) = max e.size (largestSize l) := rfl

theorem le_largestSize (h : e ∈ l) : e.size ≤ largestSize l := by
  induction l with
  | nil => simp at h
  | cons a l ih =>
    rw [largestSize_cons]
    rcases List.mem_cons.1 h with rfl | h
    · exact le_max_left _ _
    · exact (ih h).trans (le_max_right _ _)

theorem largestSize_le {n : ℕ} (h : ∀ e ∈ l, e.size ≤ n) : largestSize l ≤ n := by
  induction l with
  | nil => exact Nat.zero_le n
  | cons a l ih => exact max_le (h a (by simp)) (ih fun e he => h e (by simp [he]))

theorem exists_largestSize (h : l ≠ []) : ∃ e ∈ l, e.size = largestSize l := by
  induction l with
  | nil => exact absurd rfl h
  | cons a l ih =>
    by_cases hl : l = []
    · exact ⟨a, by simp, by simp [hl]⟩
    · obtain ⟨e, he, heq⟩ := ih hl
      rw [largestSize_cons]
      rcases le_total a.size (largestSize l) with hle | hle
      · exact ⟨e, by simp [he], by rw [max_eq_right hle, heq]⟩
      · exact ⟨a, by simp, (max_eq_left hle).symm⟩

theorem largestSize_perm (h : l.Perm l') : largestSize l = largestSize l' := by
  refine le_antisymm (largestSize_le fun e he => ?_) (largestSize_le fun e he => ?_)
  · exact le_largestSize (h.mem_iff.1 he)
  · exact le_largestSize (h.mem_iff.2 he)

theorem largestSize_append : largestSize (l ++ l') = max (largestSize l) (largestSize l') := by
  induction l with
  | nil => simp
  | cons a l ih => rw [List.cons_append, largestSize_cons, ih, largestSize_cons, max_assoc]

end LargestSize

/-- The extents of a list follow each other without gaps from `lo` up to `hi`. -/
def Tiles (hi : ℕ) : ℕ → List Extent → Prop
  | lo, [] => lo = hi
  | lo, e :: l => e.base = lo ∧ Tiles hi e.top l

namespace Tiles

variable {lo hi : ℕ} {l : List Extent}

theorem le (h : Tiles hi lo l) : lo ≤ hi := by
  induction l generalizing lo with
  | nil => exact h.le
  | cons e l ih => exact (h.1.ge.trans (Nat.le_add_right ..)).trans (ih h.2)

theorem bytesOf_eq (h : Tiles hi lo l) : bytesOf l = Set.Ico lo hi := by
  induction l generalizing lo with
  | nil =>
    obtain rfl : lo = hi := h
    simp [bytesOf]
  | cons e l ih =>
    obtain ⟨rfl, hl⟩ := h
    have hcons : bytesOf (e :: l) = e.bytes ∪ bytesOf l := by
      ext x
      simp [bytesOf]
    rw [hcons, ih hl]
    exact Set.Ico_union_Ico_eq_Ico (Nat.le_add_right ..) hl.le

theorem base_ge (h : Tiles hi lo l) {e : Extent} (he : e ∈ l) : lo ≤ e.base := by
  induction l generalizing lo with
  | nil => cases he
  | cons a l ih =>
    cases he with
    | head => exact h.1.ge
    | tail _ he => exact (h.1.ge.trans (Nat.le_add_right ..)).trans (ih h.2 he)

theorem pairwise_apart (h : Tiles hi lo l) : l.Pairwise Extent.Apart := by
  induction l generalizing lo with
  | nil => exact List.Pairwise.nil
  | cons e l ih => exact List.pairwise_cons.2 ⟨fun a ha => .inl (h.2.base_ge ha), ih h.2⟩

end Tiles

end OMR.Lib
