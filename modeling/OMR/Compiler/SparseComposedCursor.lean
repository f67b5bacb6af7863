import OMR.Compiler.SparseCursor

/-!
# Cursors over two sparse bit vectors

An `IntersectionCursor` lets two cursors overtake each other until they meet, and a `MaskCursor`
goes over the indices that a mask does not have. `SetToNextOneAfter` adds 1 to its index with 32
bits, so that behind the largest index it begins at 0 again.
-/

namespace OMR.Compiler.SparseBitVector

/-- `v - 1` of the composed cursors, with 32 bits. -/
def minusOne (index : ℕ) : ℕ := (index + (2 ^ 32 - 1)) % 2 ^ 32

/-- `IntersectionCursor`. -/
structure IntersectionCursor where
  c1 : Cursor
  c2 : Cursor

namespace IntersectionCursor

/-- `Valid`. -/
def valid (v1 v2 : List Segment) (c : IntersectionCursor) : Bool :=
  c.c1.valid v1 && c.c2.valid v2

/-- `operator SparseBitIndex`. -/
def value (c : IntersectionCursor) : ℕ := c.c1.value

/-- `FindNextCommonItem`, of which every round passes an index of one of the vectors. -/
def findNextCommonItem (v1 v2 : List Segment) : (fuel : ℕ) → IntersectionCursor →
    IntersectionCursor × Bool
  | 0, c => (c, true)
  | fuel + 1, c =>
    if c.c1.value ≠ c.c2.value then
      if c.c1.value < c.c2.value then
        let r := c.c1.setToNextOneAfter v1 (minusOne c.c2.value)
        if r.2 then findNextCommonItem v1 v2 fuel ⟨r.1, c.c2⟩ else (⟨r.1, c.c2⟩, false)
      else
        let r := c.c2.setToNextOneAfter v2 (minusOne c.c1.value)
        if r.2 then findNextCommonItem v1 v2 fuel ⟨c.c1, r.1⟩ else (⟨c.c1, r.1⟩, false)
    else (c, true)

/-- A number of rounds that is large enough. -/
def rounds (v1 v2 : List Segment) : ℕ := (indicesOf v1).length + (indicesOf v2).length + 1

/-- `SetToFirstOne`. -/
def setToFirstOne (v1 v2 : List Segment) (c : IntersectionCursor) : IntersectionCursor × Bool :=
  let c : IntersectionCursor := ⟨c.c1.setToFirstOne v1, c.c2.setToFirstOne v2⟩
  if c.valid v1 v2 then findNextCommonItem v1 v2 (rounds v1 v2) c else (c, false)

/-- `SetToNextOne`. -/
def setToNextOne (v1 v2 : List Segment) (c : IntersectionCursor) : IntersectionCursor × Bool :=
  if c.c1.value ≤ c.c2.value then
    let r := c.c1.setToNextOne v1
    if r.2 then findNextCommonItem v1 v2 (rounds v1 v2) ⟨r.1, c.c2⟩ else (⟨r.1, c.c2⟩, false)
  else
    let r := c.c2.setToNextOne v2
    if r.2 then findNextCommonItem v1 v2 (rounds v1 v2) ⟨c.c1, r.1⟩ else (⟨c.c1, r.1⟩, false)

end IntersectionCursor

/-- `MaskCursor`. -/
structure MaskCursor where
  c : Cursor
  m : Cursor

namespace MaskCursor

/-- `Valid`. -/
def valid (vector : List Segment) (p : MaskCursor) : Bool := p.c.valid vector

/-- `operator SparseBitIndex`. -/
def value (p : MaskCursor) : ℕ := p.c.value

/-- The loop of `FindNextMaskedItem`. -/
def maskLoop (vector mask : List Segment) : (fuel : ℕ) → MaskCursor → MaskCursor × Bool
  | 0, p => (p, true)
  | fuel + 1, p =>
    if p.c.value ≥ p.m.value then
      let r := if p.c.value = p.m.value then p.c.setToNextOne vector else (p.c, true)
      if r.2 then
        let q := p.m.setToNextOneAfter mask (minusOne r.1.value)
        if q.2 then maskLoop vector mask fuel ⟨r.1, q.1⟩ else (⟨r.1, q.1⟩, true)
      else (⟨r.1, p.m⟩, false)
    else (p, true)

/-- `FindNextMaskedItem`. -/
def findNextMaskedItem (vector mask : List Segment) (p : MaskCursor) : MaskCursor × Bool :=
  if p.m.valid mask then maskLoop vector mask (IntersectionCursor.rounds vector mask) p
  else (p, true)

/-- `SetToFirstOne`. -/
def setToFirstOne (vector mask : List Segment) (p : MaskCursor) : MaskCursor × Bool :=
  let p : MaskCursor := ⟨p.c.setToFirstOne vector, p.m.setToFirstOne mask⟩
  if p.c.valid vector then findNextMaskedItem vector mask p else (p, false)

/-- `SetToNextOne`. -/
def setToNextOne (vector mask : List Segment) (p : MaskCursor) : MaskCursor × Bool :=
  let r := p.c.setToNextOne vector
  if r.2 then findNextMaskedItem vector mask ⟨r.1, p.m⟩ else (⟨r.1, p.m⟩, false)

end MaskCursor

section Composed

open Cursor

variable {v v1 v2 vector mask : List Segment}

theorem lt_of_mem_indicesOf (h : Wide v) {x : ℕ} (hx : x ∈ indicesOf v) : x < 2 ^ 32 := by
  obtain ⟨s, hs, hxs⟩ := List.mem_flatMap.1 hx
  have hlt := (mem_indices (h.wellFormed s hs) hxs).2
  have hhigh := h.high_lt s hs
  rw [Segment.highBits, Nat.shiftLeft_eq] at hlt
  omega

theorem Cursor.Between.sorted (h : Wide v) {c : Cursor} {done todo : List ℕ}
    (hb : Between v c done todo) : todo.Pairwise (· < ·) := by
  have hsorted := indicesOf_sorted h
  rw [hb.append_eq, List.pairwise_append] at hsorted
  exact hsorted.2.1

theorem Cursor.Between.lt (h : Wide v) {c : Cursor} {done todo : List ℕ}
    (hb : Between v c done todo) : ∀ x ∈ todo, x < 2 ^ 32 := fun x hx =>
  lt_of_mem_indicesOf h (by
    rw [hb.append_eq]
    exact List.mem_append_right _ hx)

theorem Cursor.Between.length_le {c : Cursor} {done todo : List ℕ}
    (hb : Between v c done todo) : todo.length ≤ (indicesOf v).length := by
  rw [hb.append_eq, List.length_append]
  omega

theorem Cursor.Moved.left {r : Cursor × Bool} {l : List ℕ} (h : Moved v r l) : Left v r.1 l := by
  rcases h with ⟨rfl, hinvalid, -⟩ | ⟨hne, -, hb⟩
  · exact .inl ⟨rfl, hinvalid⟩
  · exact .inr ⟨hne, hb⟩

theorem head_le {x : ℕ} {l : List ℕ} (h : (x :: l).Pairwise (· < ·)) : ∀ b ∈ x :: l, x ≤ b := by
  intro b hb
  rcases List.mem_cons.1 hb with rfl | hb
  · exact le_rfl
  · exact ((List.pairwise_cons.1 h).1 b hb).le

end Composed

end OMR.Compiler.SparseBitVector
