import OMR.Compiler.SparseOutputExact
import Mathlib.Data.List.TakeWhile

/-!
# Cursors of sparse bit vectors

A cursor keeps its segment and the offset in it. It is invalid when it is behind the last segment,
or in front of the first one, where the 32-bit number of its segment wraps.
-/

namespace OMR.Compiler.SparseBitVector

structure Cursor where
  fSegment : List ℕ
  fSegmentPopCount : ℕ
  fSegmentHighBits : ℕ
  fSegmentIndex : ℕ
  fSegmentOffset : ℕ

namespace Cursor

/-- `Valid`. -/
def valid (vector : List Segment) (c : Cursor) : Bool := c.fSegmentIndex < vector.length

/-- `operator SparseBitIndex`. -/
def value (c : Cursor) : ℕ := c.fSegmentHighBits ||| c.fSegment.getD c.fSegmentOffset 0

/-- The fields of the segment that a cursor comes to. -/
def load (vector : List Segment) (c : Cursor) : Cursor :=
  match vector[c.fSegmentIndex]? with
  | some s =>
    { c with
      fSegment := s.values
      fSegmentPopCount := s.populationCount - 1
      fSegmentHighBits := s.highBits }
  | none => c

/-- The cursor that goes over to the next segment. -/
def toNextSegment (c : Cursor) : Cursor :=
  { c with fSegmentIndex := (c.fSegmentIndex + 1) % 2 ^ 32 }

/-- `SetToFirstOne`. -/
def setToFirstOne (vector : List Segment) (c : Cursor) : Cursor :=
  let c := { c with fSegmentIndex := 0, fSegmentOffset := 0 }
  if c.valid vector then c.load vector else c

/-- `SetToNextOne`. -/
def setToNextOne (vector : List Segment) (c : Cursor) : Cursor × Bool :=
  if c.fSegmentOffset < c.fSegmentPopCount then
    ({ c with fSegmentOffset := c.fSegmentOffset + 1 }, true)
  else
    let c := c.toNextSegment
    if c.valid vector then ({ c.load vector with fSegmentOffset := 0 }, true) else (c, false)

/-- The loop of `SetToNextOneAfter` to a segment that is not below, with the offset in it. -/
def skipSegments (vector : List Segment) (nexthi : ℕ) : (fuel index : ℕ) → Cursor →
    Cursor × ℕ × Bool
  | 0, index, c => (c, index, true)
  | fuel + 1, index, c =>
    if c.fSegmentHighBits < nexthi then
      let c := c.toNextSegment
      if c.valid vector then skipSegments vector nexthi fuel 0 (c.load vector)
      else (c, index, false)
    else (c, index, true)

/-- `SetToNextOneAfter`, with 32-bit indices. -/
def setToNextOneAfter (vector : List Segment) (c : Cursor) (next : ℕ) : Cursor × Bool :=
  let next := (next + 1) % 2 ^ 32
  let nexthi := next / 2 ^ 16 * 2 ^ 16
  let nextlo := next % 2 ^ 16
  let (c, index, found) := skipSegments vector nexthi (vector.length + 1) c.fSegmentOffset c
  if found then
    if c.fSegmentHighBits = nexthi then
      let index := advanceIndex c.fSegment nextlo index 0
      if index > c.fSegmentPopCount then
        let c := c.toNextSegment
        if c.valid vector then ({ c.load vector with fSegmentOffset := 0 }, true) else (c, false)
      else ({ c with fSegmentOffset := index }, true)
    else ({ c with fSegmentOffset := 0 }, true)
  else (c, false)

end Cursor

/-- A segment's indices, in their order. -/
def Segment.indices (s : Segment) : List ℕ := s.values.map fun low => s.highBits ||| low

/-- A vector's indices, in their order. -/
def indicesOf (v : List Segment) : List ℕ := v.flatMap Segment.indices

/-- Vectors with 16-bit upper halves. -/
structure Wide (v : List Segment) : Prop extends Ordered v where
  high_lt : ∀ s ∈ v, s.fHighBits < 2 ^ 16

section Indices

variable {v front rest : List Segment} {s : Segment}

theorem indicesOf_append (l l' : List Segment) :
    indicesOf (l ++ l') = indicesOf l ++ indicesOf l' := List.flatMap_append

theorem indicesOf_cons (s : Segment) (l : List Segment) :
    indicesOf (s :: l) = s.indices ++ indicesOf l := List.flatMap_cons

theorem Wide.length_lt (h : Wide v) : v.length < 2 ^ 32 := by
  have hnodup : (v.map fun s => s.fHighBits).Nodup :=
    List.nodup_iff_pairwise_ne.2 (List.pairwise_map.2 (h.sorted.imp fun hab => hab.ne))
  have hsub : (v.map fun s => s.fHighBits).toFinset ⊆ Finset.range (2 ^ 16) := by
    intro x hx
    obtain ⟨s, hs, rfl⟩ := List.mem_map.1 (List.mem_toFinset.1 hx)
    exact Finset.mem_range.2 (h.high_lt s hs)
  have hcard := Finset.card_le_card hsub
  rw [List.toFinset_card_of_nodup hnodup, List.length_map, Finset.card_range] at hcard
  exact lt_of_le_of_lt hcard (by decide)

theorem Wide.of_split (h : Wide v) (hsplit : v = front ++ s :: rest) : Wide rest where
  sorted := by
    have hsorted := h.sorted
    rw [hsplit, List.pairwise_append, List.pairwise_cons] at hsorted
    exact hsorted.2.1.2
  wellFormed := fun a ha => h.wellFormed a (by
    rw [hsplit]
    exact List.mem_append_right _ (List.mem_cons_of_mem _ ha))
  high_lt := fun a ha => h.high_lt a (by
    rw [hsplit]
    exact List.mem_append_right _ (List.mem_cons_of_mem _ ha))

end Indices

namespace Cursor

variable {v front rest : List Segment} {s : Segment} {pre post done todo : List ℕ} {c : Cursor}

/-- A cursor in segment `s`, behind the values `pre` and in front of the values `post`. -/
structure At (v : List Segment) (c : Cursor) (front : List Segment) (s : Segment)
    (rest : List Segment) (pre post : List ℕ) : Prop where
  split : v = front ++ s :: rest
  values : s.values = pre ++ post
  ne_nil : post ≠ []
  index : c.fSegmentIndex = front.length
  offset : c.fSegmentOffset = pre.length
  segment : c.fSegment = s.values
  popCount : c.fSegmentPopCount = s.values.length - 1
  high : c.fSegmentHighBits = s.highBits

/-- The indices that a cursor has passed and those that are left, of which it is at the first. -/
def Between (v : List Segment) (c : Cursor) (done todo : List ℕ) : Prop :=
  ∃ front s rest pre post, At v c front s rest pre post ∧
    done = indicesOf front ++ pre.map (fun low => s.highBits ||| low) ∧
    todo = post.map (fun low => s.highBits ||| low) ++ indicesOf rest

/-- A cursor at the first one of the indices that are left, or invalid if there is none. -/
def Left (v : List Segment) (c : Cursor) (todo : List ℕ) : Prop :=
  todo = [] ∧ c.valid v = false ∨ todo ≠ [] ∧ ∃ done, Between v c done todo

theorem Between.append_eq (h : Between v c done todo) : indicesOf v = done ++ todo := by
  obtain ⟨front, s, rest, pre, post, hat, rfl, rfl⟩ := h
  rw [hat.split, indicesOf_append, indicesOf_cons, Segment.indices, hat.values, List.map_append]
  simp only [List.append_assoc]

theorem At.valid (h : At v c front s rest pre post) : c.valid v = true := by
  rw [Cursor.valid, decide_eq_true_eq, h.index, h.split, List.length_append, List.length_cons]
  omega

theorem Between.valid (h : Between v c done todo) : c.valid v = true := by
  obtain ⟨front, s, rest, pre, post, hat, -⟩ := h
  exact hat.valid

/-- The value of a cursor is the first index that is left. -/
theorem Between.value {x : ℕ} (h : Between v c done (x :: todo)) : c.value = x := by
  obtain ⟨front, s, rest, pre, post, hat, -, heq⟩ := h
  obtain ⟨low, post, rfl⟩ := List.exists_cons_of_ne_nil hat.ne_nil
  have hget : s.values.getD pre.length 0 = low := by
    rw [hat.values, List.getD_append_right _ _ _ _ le_rfl, Nat.sub_self]
    rfl
  rw [List.map_cons, List.cons_append, List.cons.injEq] at heq
  rw [Cursor.value, hat.high, hat.segment, hat.offset, hget, heq.1]

/-- A result of a move: the cursor is at the first index that is left, or it is invalid. -/
def Moved (v : List Segment) (r : Cursor × Bool) (todo : List ℕ) : Prop :=
  todo = [] ∧ r.1.valid v = false ∧ r.2 = false ∨
    todo ≠ [] ∧ r.2 = true ∧ ∃ done, Between v r.1 done todo

theorem mem_indices (hs : s.WellFormed) {y : ℕ} (hy : y ∈ s.indices) :
    s.highBits ≤ y ∧ y < s.highBits + 2 ^ 16 := by
  obtain ⟨low, hlow, rfl⟩ := List.mem_map.1 hy
  have hlt := hs.values_lt low hlow
  rw [highBits_or hlt, Segment.highBits, Nat.shiftLeft_eq]
  omega

/-- The indices of the segments behind one are above its indices. -/
theorem highBits_le_of_mem (h : Wide v) (hsplit : v = front ++ s :: rest) {y : ℕ}
    (hy : y ∈ indicesOf rest) : s.highBits + 2 ^ 16 ≤ y := by
  obtain ⟨a, ha, hya⟩ := List.mem_flatMap.1 hy
  have hsorted := h.sorted
  rw [hsplit, List.pairwise_append, List.pairwise_cons] at hsorted
  have hlt := hsorted.2.1.1 a ha
  have hbounds := mem_indices ((h.of_split hsplit).wellFormed a ha) hya
  unfold Segment.highBits at *
  rw [Nat.shiftLeft_eq] at *
  omega

theorem indices_sorted (hs : s.WellFormed) : s.indices.Pairwise (· < ·) := by
  refine List.pairwise_map.2 (hs.sorted.imp_of_mem fun {a b} ha hb hab => ?_)
  rw [highBits_or (hs.values_lt a ha), highBits_or (hs.values_lt b hb)]
  exact Nat.add_lt_add_left hab _

theorem indicesOf_sorted (h : Wide v) : (indicesOf v).Pairwise (· < ·) := by
  induction v with
  | nil => exact List.Pairwise.nil
  | cons s v ih =>
    have hs := h.wellFormed s (List.mem_cons_self ..)
    rw [indicesOf_cons]
    refine List.pairwise_append.2
      ⟨indices_sorted hs, ih (h.of_split (List.nil_append _).symm), fun x hx y hy => ?_⟩
    exact (mem_indices hs hx).2.trans_le
      (highBits_le_of_mem h (List.nil_append _).symm hy)

end Cursor

end OMR.Compiler.SparseBitVector
