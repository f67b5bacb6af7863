import OMR.Port.OmrHeapAllocate

/-!
# Freeing keeps the invariant

A freed block is merged with the free blocks around it. `Freed` describes the
block that comes out of the two merges; the cursor is moved to it if it stood
inside.
-/

namespace OMR.Port.OmrHeap

open OMR.Lib Slots

/-- Where a cursor goes when the slots from `top` on become one block. -/
def movedCursor (top size cursor : ℤ) : ℤ :=
  if top < cursor ∧ cursor < top + size + 2 then top else cursor

/-- The block `r` takes the slots of the blocks `mid` behind the blocks `k`, the
last of which is occupied. Nothing but the cursor is changed around it. -/
structure MergedAt (m : Slots) (k mid : List Block) (r : Merged) : Prop where
  top : r.top = headerSlots + extent k
  size : r.size + 2 = extent mid
  pos : 0 < r.size
  heap : ∀ i, i ≠ 2 → (i < r.top ∨ r.top + r.size + 2 ≤ i) → r.heap i = m i
  cursor : r.heap.lastAllocSlot = movedCursor r.top r.size m.lastAllocSlot
  previous : ∀ c ∈ k.getLast?, c.free = false

namespace Inv

variable {m : Slots} {l l₁ l₂ : List Block} {b c : Block}

/-- The cursor does not stand inside a block. -/
theorem cursor_outside (h : Inv m (l₁ ++ b :: l₂)) : m.lastAllocSlot ≤ headerSlots + extent l₁ ∨
    headerSlots + extent l₁ + b.size + 2 ≤ m.lastAllocSlot := by
  obtain ⟨hp, hpos, -, -, -⟩ := h.middle
  obtain ⟨-, hzero⟩ | ⟨k₁, k₂, hk, -, hcursor, -⟩ := h.cursor
  · rw [hzero]
    exact Or.inl (by omega)
  have hl := h.tiled
  rw [hcursor]
  rcases cut_cases hk with ⟨a, rfl, rfl⟩ | ⟨d, rfl, rfl⟩
  · have hnonneg := (tiled_append.1 (tiled_append.1 hl).1).2.extent_nonneg
    rw [extent_append]
    exact Or.inl (by omega)
  · have hnonneg := (tiled_append.1 (tiled_middle.1 hl).2.2.2.2).1.extent_nonneg
    rw [extent_append, extent_cons]
    exact Or.inr (by omega)

/-- The slot in front of a block is the second tag of the block before it. -/
theorem previous_tag (h : Inv m (l₁ ++ [c] ++ b :: l₂)) :
    m (headerSlots + extent (l₁ ++ [c]) - 1) = c.tag := by
  obtain ⟨-, -, -, hbottom, -⟩ := tiled_middle.1 (tiled_append.1 h.tiled).1
  rw [← hbottom, extent_append, extent_cons, extent_nil]
  congr 1
  ring

/-- The merge with the block in front. -/
theorem mergePrevious_spec (h : Inv m (l₁ ++ b :: l₂)) (hb : b.free = false) :
    ∃ k x, l₁ = k ++ x ∧ (∀ c ∈ x, c.free = true) ∧
      MergedAt m k (x ++ [b]) (mergePrevious m (headerSlots + extent l₁)) := by
  obtain ⟨hp, hpos, htop, -, -⟩ := h.middle
  have htag : b.tag = -b.size := if_neg (by simp [hb])
  have houtside := h.cursor_outside
  rw [htag] at htop
  -- nothing is merged
  have hkeep : (∀ d ∈ l₁.getLast?, d.free = false) →
      MergedAt m l₁ [b] ⟨headerSlots + extent l₁, b.size, m⟩ := by
    intro hlast
    refine ⟨rfl, ?_, hpos, fun _ _ _ => rfl, ?_, hlast⟩
    · rw [extent_cons, extent_nil, add_zero]
    · rw [movedCursor, if_neg (by dsimp only; omega)]
  rcases List.eq_nil_or_concat l₁ with rfl | ⟨k, c, rfl⟩
  · refine ⟨[], [], rfl, by simp, ?_⟩
    rw [mergePrevious, if_pos (by simp), htop, neg_neg]
    exact hkeep (by simp)
  · rw [List.concat_eq_append] at *
    have hprev := h.previous_tag
    have hc : 0 < c.size := h.tiled.size_pos (by simp)
    have hnonneg := (tiled_append.1 (tiled_append.1 h.tiled).1).1.extent_nonneg
    have hext : extent (k ++ [c]) = extent k + (c.size + 2) := by simp
    have hnot : ¬ headerSlots + extent (k ++ [c]) = headerSlots := by omega
    cases hcfree : c.free with
    | true =>
      have hctag : c.tag = c.size := if_pos hcfree
      rw [hctag] at hprev
      have hk : ∀ d ∈ k.getLast?, d.free = false := by
        have hco := h.coalesced
        rw [List.append_assoc] at hco
        exact ((coalesced_middle.1 hco).2.2 hcfree).1
      have hbefore : m.lastAllocSlot ≤ headerSlots + extent k ∨
          headerSlots + extent k + c.size + 2 ≤ m.lastAllocSlot := by
        have h' := h
        rw [List.append_assoc] at h'
        exact h'.cursor_outside
      have hmerge : mergePrevious m (headerSlots + extent (k ++ [c])) =
          ⟨headerSlots + extent k, b.size + (c.size + 2),
            if m.lastAllocSlot = headerSlots + extent (k ++ [c]) then
              m.set 2 (headerSlots + extent k) else m⟩ := by
        have htop' : headerSlots + extent (k ++ [c]) - 1 - c.size - 1 = headerSlots + extent k := by
          omega
        have hiff : headerSlots + extent (k ++ [c]) - 1 = m.lastAllocSlot - 1 ↔
            m.lastAllocSlot = headerSlots + extent (k ++ [c]) := by omega
        rw [mergePrevious, if_neg hnot, hprev, if_pos hc, htop, neg_neg]
        simp only [htop', hiff]
      have hheap : ∀ i, i ≠ 2 → (if m.lastAllocSlot = headerSlots + extent (k ++ [c]) then
          m.set 2 (headerSlots + extent k) else m) i = m i := by
        intro i hi
        split_ifs
        · exact Slots.set_of_ne hi
        · rfl
      rw [hmerge]
      refine ⟨k, [c], rfl, by simpa using hcfree, rfl, ?_, by dsimp only; omega,
        fun i hi _ => hheap i hi, ?_, hk⟩
      · show b.size + (c.size + 2) + 2 = extent [c, b]
        rw [extent_cons, extent_cons, extent_nil]
        ring
      · rw [movedCursor]
        dsimp only
        split_ifs with h₁ h₂ h₂
        · rfl
        · omega
        · omega
        · rfl
    | false =>
      have hctag : c.tag = -c.size := if_neg (by simp [hcfree])
      rw [hctag] at hprev
      refine ⟨k ++ [c], [], by simp, by simp, ?_⟩
      rw [mergePrevious, if_neg hnot, hprev, if_neg (by omega), htop, neg_neg]
      exact hkeep (by simpa using hcfree)

/-- The merge with the block behind, after which both tags are written. -/
theorem mergeNext_spec {k mid : List Block} {r : Merged} (h : Inv m (k ++ (mid ++ l₂)))
    (hr : MergedAt m k mid r) :
    ∃ y k₂, l₂ = y ++ k₂ ∧ (∀ c ∈ y, c.free = true) ∧ MergedAt m k (mid ++ y) (mergeNext r) ∧
      (mergeNext r).heap (mergeNext r).top = (mergeNext r).size ∧
      (mergeNext r).heap ((mergeNext r).top + (mergeNext r).size + 1) = (mergeNext r).size ∧
      ∀ d ∈ k₂.head?, d.free = false := by
  obtain ⟨top, size, heap⟩ := r
  obtain ⟨htop, hsize, hpos, hheap, hcursor, hprev⟩ := hr
  dsimp only at htop hsize hpos hheap hcursor
  obtain ⟨hk, hrest⟩ := tiled_append.1 h.tiled
  obtain ⟨-, hl₂⟩ := tiled_append.1 hrest
  have hknonneg := hk.extent_nonneg
  have hheader : headerSlots = 4 := rfl
  have hheapSize : m.heapSize = top + size + 2 + extent l₂ := by
    rw [h.size, extent_append, extent_append]
    omega
  generalize hm' : (heap.set top size).set (top + size + 1) size = m'
  have hm'out : ∀ i, i ≠ 2 → (i < top ∨ top + size + 2 ≤ i) → m' i = m i := by
    intro i hi hout
    rw [← hm']
    simp (disch := omega) only [Slots.set_of_ne]
    exact hheap i hi hout
  have hm'cursor : m'.lastAllocSlot = movedCursor top size m.lastAllocSlot := by
    rw [← hcursor, ← hm']
    show (heap.set top size).set (top + size + 1) size 2 = heap 2
    simp (disch := omega) only [Slots.set_of_ne]
  have hm'size : m'.heapSize = m.heapSize := hm'out 0 (by decide) (by omega)
  have htags : m' top = size ∧ m' (top + size + 1) = size := by
    rw [← hm']
    simp (disch := omega) only [Slots.set_of_ne, Slots.set_self, and_self]
  -- nothing is merged
  have hkeep : (∀ d ∈ l₂.head?, d.free = false) → mergeNext ⟨top, size, heap⟩ = ⟨top, size, m'⟩ →
      ∃ y k₂, l₂ = y ++ k₂ ∧ (∀ c ∈ y, c.free = true) ∧
        MergedAt m k (mid ++ y) (mergeNext ⟨top, size, heap⟩) ∧
        (mergeNext ⟨top, size, heap⟩).heap (mergeNext ⟨top, size, heap⟩).top =
          (mergeNext ⟨top, size, heap⟩).size ∧
        (mergeNext ⟨top, size, heap⟩).heap ((mergeNext ⟨top, size, heap⟩).top +
          (mergeNext ⟨top, size, heap⟩).size + 1) = (mergeNext ⟨top, size, heap⟩).size ∧
        ∀ d ∈ k₂.head?, d.free = false := by
    intro hnext hmerge
    rw [hmerge]
    refine ⟨[], l₂, rfl, by simp, ?_, htags.1, htags.2, hnext⟩
    rw [List.append_nil]
    exact ⟨htop, hsize, hpos, hm'out, hm'cursor, hprev⟩
  cases l₂ with
  | nil =>
    refine hkeep (by simp) ?_
    rw [extent_nil] at hheapSize
    rw [mergeNext]
    simp only [hm', hm'size]
    rw [if_pos (by omega)]
  | cons d k₂ =>
    obtain ⟨hdpos, hdtop, -, hk₂⟩ := hl₂
    have hk₂nonneg := hk₂.extent_nonneg
    have hdtop' : m (top + size + 2) = d.tag := by
      rw [← hdtop]
      congr 1
      omega
    rw [extent_cons] at hheapSize
    have hm'next : m' (top + size + 2) = d.tag := by rw [hm'out _ (by omega) (by omega), hdtop']
    cases hdfree : d.free with
    | false =>
      have hdtag : d.tag = -d.size := if_neg (by simp [hdfree])
      refine hkeep (by simpa using hdfree) ?_
      rw [mergeNext]
      simp only [hm', hm'size, hm'next]
      rw [if_neg (by omega), if_neg (by omega)]
    | true =>
      have hdtag : d.tag = d.size := if_pos hdfree
      have hco := h.coalesced
      rw [← List.append_assoc] at hco
      have hnext := ((coalesced_middle.1 hco).2.2 hdfree).2
      have houtside : m.lastAllocSlot ≤ top + size + 2 ∨
          top + size + 2 + d.size + 2 ≤ m.lastAllocSlot := by
        have h' := h
        rw [← List.append_assoc] at h'
        have := h'.cursor_outside
        rw [extent_append] at this
        omega
      generalize hm'' : (m'.set top (size + (d.size + 2))).set (top + (size + (d.size + 2)) + 1)
        (size + (d.size + 2)) = m''
      have hm''cursor : m''.lastAllocSlot = m'.lastAllocSlot := by
        rw [← hm'']
        show (m'.set top _).set _ _ 2 = m' 2
        simp (disch := omega) only [Slots.set_of_ne]
      have hmerge : mergeNext ⟨top, size, heap⟩ = ⟨top, size + (d.size + 2),
          if top + size + 2 = m'.lastAllocSlot then m''.set 2 top else m''⟩ := by
        rw [mergeNext]
        simp only [hm', hm'size, hm'next, hdtag, hm'', hm''cursor]
        rw [if_neg (by omega), if_pos hdpos]
      have hif : ∀ i, i ≠ 2 → (if top + size + 2 = m'.lastAllocSlot then m''.set 2 top else m'') i =
          m'' i := by
        intro i hi
        split_ifs
        · exact Slots.set_of_ne hi
        · rfl
      rw [hmerge]
      refine ⟨[d], k₂, rfl, by simpa using hdfree,
        ⟨htop, ?_, by dsimp only; omega, ?_, ?_, hprev⟩, ?_, ?_, hnext⟩
      · rw [extent_append, extent_cons, extent_nil]
        dsimp only
        omega
      · intro i hi hout
        dsimp only at hout ⊢
        rw [hif i hi, ← hm'']
        simp (disch := omega) only [Slots.set_of_ne]
        exact hm'out i hi (by omega)
      · dsimp only
        rw [movedCursor] at hm'cursor ⊢
        split_ifs at hm'cursor ⊢ <;> first | rfl | omega
      · dsimp only
        rw [hif _ (by omega), ← hm'']
        simp (disch := omega) only [Slots.set_of_ne, Slots.set_self]
      · dsimp only
        rw [hif _ (by omega), ← hm'']
        simp only [Slots.set_self]

end Inv

/-- The cursor after a merge. -/
theorem CursorAt.merge {m m' : Slots} {k mid k₂ : List Block} {size : ℤ}
    (h : CursorAt m (k ++ (mid ++ k₂))) (hsize : size + 2 = extent mid) (hpos : 0 < size)
    (htiled : Tiled m headerSlots (k ++ (mid ++ k₂)))
    (hcursor : m'.lastAllocSlot = movedCursor (headerSlots + extent k) size m.lastAllocSlot)
    (hold : m.largestAllocSizeVisited ≤ m'.largestAllocSizeVisited)
    (hnew : headerSlots + extent k < m'.lastAllocSlot → size ≤ m'.largestAllocSizeVisited) :
    CursorAt m' (k ++ ⟨size, true⟩ :: k₂) := by
  obtain ⟨a₁, a₂, ha, hne, hslot, hbelow⟩ := h
  obtain ⟨hk, hrest⟩ := tiled_append.1 htiled
  obtain ⟨hmid, hk₂⟩ := tiled_append.1 hrest
  rw [movedCursor] at hcursor
  -- a cursor at the start of the merged block
  have hstart : m'.lastAllocSlot = headerSlots + extent k → (∀ c ∈ k, c ∈ a₁) →
      CursorAt m' (k ++ ⟨size, true⟩ :: k₂) := by
    intro hslot' hsub
    exact ⟨k, ⟨size, true⟩ :: k₂, rfl, by simp, hslot',
      fun c hc hfree => (hbelow c (hsub c hc) hfree).trans hold⟩
  -- a cursor behind it
  have hbehind : ∀ w, k₂ = w ++ a₂ → a₁ = k ++ (mid ++ w) →
      CursorAt m' (k ++ ⟨size, true⟩ :: k₂) := by
    rintro w rfl rfl
    have hw := (tiled_append.1 hk₂).1.extent_nonneg
    rw [extent_append, extent_append] at hslot
    rw [if_neg (by omega)] at hcursor
    refine ⟨k ++ ⟨size, true⟩ :: w, a₂, by simp, hne, ?_, fun c hc hfree => ?_⟩
    · rw [hcursor, hslot, extent_append, extent_cons, hsize]
    · rcases List.mem_append.1 hc with hc | hc
      · exact (hbelow c (by simp [hc]) hfree).trans hold
      · rcases List.mem_cons.1 hc with rfl | hc
        · exact hnew (by omega)
        · exact (hbelow c (by simp [hc]) hfree).trans hold
  rcases List.append_eq_append_iff.1 ha with ⟨z, rfl, hz⟩ | ⟨z, rfl, rfl⟩
  · rcases List.append_eq_append_iff.1 hz with ⟨w, rfl, rfl⟩ | ⟨w, rfl, rfl⟩
    · exact hbehind w rfl rfl
    · obtain ⟨hz, hw⟩ := tiled_append.1 hmid
      have hznonneg := hz.extent_nonneg
      rw [extent_append] at hslot hsize
      cases w with
      | nil => exact hbehind [] rfl (by simp)
      | cons c w =>
        obtain ⟨hcpos, -, -, hw⟩ := hw
        have hwnonneg := hw.extent_nonneg
        rw [extent_cons] at hsize
        refine hstart ?_ (fun d hd => List.mem_append_left _ hd)
        split_ifs at hcursor
        · exact hcursor
        · omega
  · have hznonneg := (tiled_append.1 hk).2.extent_nonneg
    rw [extent_append, if_neg (by omega)] at hcursor
    refine ⟨a₁, z ++ ⟨size, true⟩ :: k₂, by simp, by simp, by rw [hcursor, hslot],
      fun c hc hfree => (hbelow c hc hfree).trans hold⟩

namespace Inv

/-- The lower bound of the first free block. -/
theorem le_firstFree {p : ℤ} (h : Tiled m p l) (hfree : ∃ b ∈ l, b.free = true) :
    p ≤ firstFree p l := by
  obtain ⟨l₁, b, l₂, rfl, -, -, hfirst⟩ := @exists_firstFree p _ hfree
  have := (tiled_append.1 h).1.extent_nonneg
  rw [hfirst]
  omega

/-- Freeing an occupied block merges it with the free blocks around it. -/
theorem free (h : Inv m (l₁ ++ b :: l₂)) (hb : b.free = false) :
    ∃ k x y k₂ size, l₁ = k ++ x ∧ l₂ = y ++ k₂ ∧ (∀ c ∈ x ++ y, c.free = true) ∧
      size + 2 = extent (x ++ b :: y) ∧
      Inv (OmrHeap.free m (headerSlots + extent l₁ + 1)) (k ++ ⟨size, true⟩ :: k₂) := by
  obtain ⟨k, x, rfl, hx, hprevious⟩ := h.mergePrevious_spec hb
  have h' : Inv m (k ++ ((x ++ [b]) ++ l₂)) := by simpa using h
  obtain ⟨y, k₂, rfl, hy, ⟨htop, hsize, hpos, hheap, hcursor, hlast⟩, htag, htag', hhead⟩ :=
    h'.mergeNext_spec hprevious
  rw [OmrHeap.free, add_sub_cancel_right]
  generalize mergeNext (mergePrevious m (headerSlots + extent (k ++ x))) = r at *
  obtain ⟨top, size, heap⟩ := r
  dsimp only at htop hsize hpos hheap hcursor htag htag' ⊢
  refine ⟨k, x, y, k₂, size, rfl, rfl, ?_, by simpa using hsize, ?_⟩
  · intro c hc
    rcases List.mem_append.1 hc with hc | hc
    · exact hx c hc
    · exact hy c hc
  have hmid : k ++ ((x ++ [b]) ++ (y ++ k₂)) = k ++ (((x ++ [b]) ++ y) ++ k₂) := by simp
  rw [hmid] at h'
  obtain ⟨hk, hrest⟩ := tiled_append.1 h'.tiled
  have hknonneg := hk.extent_nonneg
  have hheader : headerSlots = 4 := rfl
  have hcoalesced : Coalesced (k ++ ⟨size, true⟩ :: k₂) := by
    have hco := h'.coalesced
    refine coalesced_middle.2 ⟨?_, ?_, fun _ => ⟨hlast, hhead⟩⟩
    · exact (List.isChain_append.1 hco).1
    · exact (List.isChain_append.1 (List.isChain_append.1 hco).2.1).2.1
  have htiled : ∀ {m' : Slots}, (∀ i, 4 ≤ i → m' i = heap i) →
      Tiled m' headerSlots (k ++ ⟨size, true⟩ :: k₂) := by
    intro m' hm'
    refine @Tiled.replace _ _ _ _ _ _ [⟨size, true⟩] h'.tiled (by simpa using hsize) ?_ ?_
    · refine ⟨hpos, ?_, ?_, trivial⟩
      · rw [hm' _ (by omega), ← htop]
        exact htag
      · rw [hm' _ (by dsimp only; omega), ← htop]
        exact htag'
    · intro i hi hout
      rw [hm' i (by omega)]
      exact hheap i (by omega) (by omega)
  have hextent : extent (k ++ ⟨size, true⟩ :: k₂) = extent (k ++ (((x ++ [b]) ++ y) ++ k₂)) := by
    rw [extent_append, extent_cons, extent_append, extent_append, ← hsize]
  have hheapHeader : ∀ i, i ≠ 2 → i < 4 → heap i = m i := fun i hi hi' => hheap i hi (by omega)
  have hfirst : m.firstFreeBlock = firstFree headerSlots (k ++ (((x ++ [b]) ++ y) ++ k₂)) := h'.first
  by_cases hreset : m.firstFreeBlock = 0 ∨ top < m.firstFreeBlock
  · -- the freed block is the first free one now
    rw [if_pos hreset]
    have hocc : ∀ c ∈ k, c.free = false := by
      intro c hc
      by_contra hfree
      have hexists : ∃ c ∈ k, c.free = true := ⟨c, hc, by simpa using hfree⟩
      rcases hreset with hzero | hlt
      · have := h'.firstFreeBlock_eq_zero_iff.1 hzero c (by simp [hc])
        rw [this] at hfree
        exact hfree rfl
      · obtain ⟨k', d, k'', rfl, -, -, heq⟩ := @exists_firstFree headerSlots _ hexists
        obtain ⟨-, hdpos, -, -, hk''⟩ := tiled_middle.1 hk
        have := hk''.extent_nonneg
        rw [hfirst, firstFree_append_of_free hexists, heq, htop, extent_append, extent_cons] at hlt
        omega
    refine h'.update (htiled fun i hi => ?_) ?_ hextent (by simp) hcoalesced ?_ (Or.inr ?_)
    · simp (disch := omega) only [Slots.set_of_ne]
    · exact hheapHeader 0 (by decide) (by decide)
    · rw [firstFree_append_of_occupied hocc, firstFree_cons_free rfl, ← htop]
      rfl
    · refine ⟨k, ⟨size, true⟩ :: k₂, rfl, by simp, htop, fun c hc hfree => ?_⟩
      rw [hocc c hc] at hfree
      cases hfree
  · rw [if_neg hreset]
    push Not at hreset
    obtain ⟨hne, hle⟩ := hreset
    have hfirst' : m.firstFreeBlock = firstFree headerSlots (k ++ ⟨size, true⟩ :: k₂) := by
      by_cases hexists : ∃ c ∈ k, c.free = true
      · rw [hfirst, firstFree_append_of_free hexists, firstFree_append_of_free hexists]
      · have hocc : ∀ c ∈ k, c.free = false := fun c hc => by
          by_contra hfree
          exact hexists ⟨c, hc, by simpa using hfree⟩
        have hrestFree : ∃ c ∈ ((x ++ [b]) ++ y) ++ k₂, c.free = true := by
          obtain ⟨c, hc, hfree⟩ := h'.exists_free hne
          rcases List.mem_append.1 hc with hc | hc
          · rw [hocc c hc] at hfree
            cases hfree
          · exact ⟨c, hc, hfree⟩
        have := le_firstFree hrest hrestFree
        rw [firstFree_append_of_occupied hocc] at hfirst
        rw [firstFree_append_of_occupied hocc, firstFree_cons_free rfl]
        omega
    generalize hm' : (if top < heap.lastAllocSlot then
        if size > heap.largestAllocSizeVisited then heap.set 3 size else heap
      else heap) = m'
    have hm'heap : ∀ i, i ≠ 3 → m' i = heap i := by
      intro i hi
      rw [← hm']
      split_ifs
      · exact Slots.set_of_ne hi
      · rfl
      · rfl
    have hold : m.largestAllocSizeVisited ≤ m'.largestAllocSizeVisited := by
      have h3 : heap.largestAllocSizeVisited = m.largestAllocSizeVisited :=
        hheapHeader 3 (by decide) (by decide)
      rw [← hm']
      split_ifs with h₁ h₂
      · show _ ≤ heap.set 3 size 3
        rw [Slots.set_self]
        omega
      · omega
      · omega
    have hnew : top < m'.lastAllocSlot → size ≤ m'.largestAllocSizeVisited := by
      intro hlt
      have h2 : m'.lastAllocSlot = heap.lastAllocSlot := hm'heap 2 (by decide)
      rw [← hm', if_pos (by omega)]
      split_ifs with h₁
      · show size ≤ heap.set 3 size 3
        rw [Slots.set_self]
      · omega
    refine h'.update (htiled fun i hi => hm'heap i (by omega)) ?_ hextent (by simp) hcoalesced ?_
      (Or.inr ?_)
    · exact (hm'heap 0 (by decide)).trans (hheapHeader 0 (by decide) (by decide))
    · rw [← hfirst']
      exact (hm'heap 1 (by decide)).trans (hheapHeader 1 (by decide) (by decide))
    · obtain ⟨hzero, -⟩ | hold' := h'.cursor
      · exact absurd hzero hne
      · exact hold'.merge hsize hpos h'.tiled
          (by rw [← htop]; exact (hm'heap 2 (by decide)).trans hcursor) hold (by rw [← htop]; exact hnew)

end Inv

end OMR.Port.OmrHeap
