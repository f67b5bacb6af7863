import OMR.Port.OmrHeapFree

/-!
# Reallocation and growth keep the invariant

A block is resized in place, at the expense of the free block behind it or in
favour of a free block behind it, or it is moved. Afterwards the cursor is put on
the first free block; on a full heap that is slot 0.
-/

namespace OMR.Port.OmrHeap

open OMR.Lib Slots

namespace Inv

variable {m m' : Slots} {l l₁ l₂ k₂ : List Block} {b d : Block} {g : ℤ}

/-- A heap of as many slots as before whose cursor is reset. -/
theorem reset {l' : List Block} (h : Inv m l) (htiled : Tiled m' headerSlots l')
    (hsize : m'.heapSize = m.heapSize) (hextent : extent l' = extent l) (hne : l' ≠ [])
    (hcoalesced : Coalesced l') (hfirst : m'.firstFreeBlock = firstFree headerSlots l') :
    Inv (resetCursor m') l' := by
  refine h.update ?_ hsize hextent hne hcoalesced hfirst ?_
  · rwa [resetCursor, tiled_set (by decide), tiled_set (by decide)]
  · by_cases hfree : ∃ b ∈ l', b.free = true
    · exact Or.inr (cursorAt_firstFree hfirst hfree)
    · have hocc : ∀ b ∈ l', b.free = false := fun b hb => by
        by_contra hb'
        exact hfree ⟨b, hb, by simpa using hb'⟩
      rw [firstFree_eq_zero hocc] at hfirst
      exact Or.inl ⟨hfirst, hfirst⟩

theorem resetCursor (h : Inv m l) : Inv (OmrHeap.resetCursor m) l :=
  h.reset h.tiled rfl rfl h.nonempty h.coalesced h.first

/-- The first free block is before a given cut or behind it. -/
theorem firstFree_cases (h : Inv m (l₁ ++ l₂)) :
    (∃ c ∈ l₁, c.free = true) ∧ m.firstFreeBlock < headerSlots + extent l₁ ∧
        m.firstFreeBlock ≠ 0 ∧ (∀ l, firstFree headerSlots (l₁ ++ l) = m.firstFreeBlock) ∨
      (∀ c ∈ l₁, c.free = false) ∧
        (m.firstFreeBlock = 0 ∨ headerSlots + extent l₁ ≤ m.firstFreeBlock) := by
  by_cases hexists : ∃ c ∈ l₁, c.free = true
  · have hpos := h.firstFreeBlock_pos (by
      obtain ⟨c, hc, hfree⟩ := hexists
      exact ⟨c, by simp [hc], hfree⟩)
    have hsame : ∀ l, firstFree headerSlots (l₁ ++ l) = m.firstFreeBlock := by
      intro l
      rw [h.first, firstFree_append_of_free hexists, firstFree_append_of_free hexists]
    refine Or.inl ⟨hexists, ?_, by omega, hsame⟩
    obtain ⟨k, c, k', rfl, -, -, heq⟩ := @exists_firstFree headerSlots _ hexists
    obtain ⟨-, hcpos, -, -, hk'⟩ := tiled_middle.1 (tiled_append.1 h.tiled).1
    have := hk'.extent_nonneg
    rw [h.first, firstFree_append_of_free hexists, heq, extent_append, extent_cons]
    omega
  · have hocc : ∀ c ∈ l₁, c.free = false := fun c hc => by
      by_contra hfree
      exact hexists ⟨c, hc, by simpa using hfree⟩
    refine Or.inr ⟨hocc, ?_⟩
    by_cases hzero : m.firstFreeBlock = 0
    · exact Or.inl hzero
    · right
      rw [h.first, firstFree_append_of_occupied hocc]
      refine le_firstFree (tiled_append.1 h.tiled).2 ?_
      obtain ⟨c, hc, hfree⟩ := h.exists_free hzero
      rcases List.mem_append.1 hc with hc | hc
      · rw [hocc c hc] at hfree
        cases hfree
      · exact ⟨c, hc, hfree⟩

/-- The tags of a block and of a free block behind it are moved. -/
theorem resize {size next : ℤ} {mid : List Block} (h : Inv m (l₁ ++ (mid ++ k₂)))
    (hsize : 0 < size) (hnext : 0 < next) (hextent : size + 2 + (next + 2) = extent mid)
    (hhead : ∀ c ∈ k₂.head?, c.free = false)
    (hm' : ∀ i, i ≠ 1 → m' i = setBlocks m (headerSlots + extent l₁) size next i)
    (hfirst : m'.firstFreeBlock =
      firstFree headerSlots (l₁ ++ ([⟨size, false⟩, ⟨next, true⟩] ++ k₂))) :
    Inv (OmrHeap.resetCursor m') (l₁ ++ ([⟨size, false⟩, ⟨next, true⟩] ++ k₂)) := by
  have hp := (tiled_append.1 h.tiled).1.extent_nonneg
  have hheader : headerSlots = 4 := rfl
  have hext : extent ([⟨size, false⟩, ⟨next, true⟩] : List Block) = extent mid := by
    rw [← hextent]
    simp [add_assoc]
  have hco := h.coalesced
  refine h.reset ?_ ?_ ?_ (by simp) ?_ hfirst
  · refine h.tiled.replace hext ?_ fun i hi hout => ?_
    · refine (@tiled_setBlocks m _ _ _ hsize hnext).congr fun i hi _ => hm' i (by omega)
    · rw [hm' i (by omega)]
      exact setBlocks_of_outside hsize hnext (by omega)
  · show m' 0 = m 0
    rw [hm' 0 (by decide)]
    exact setBlocks_of_outside hsize hnext (by omega)
  · rw [extent_append, extent_append, hext, extent_append, extent_append]
  · refine coalesced_middle.2 ⟨(List.isChain_append.1 hco).1, ?_, by simp⟩
    refine (@coalesced_middle _ [] _).2 ⟨List.isChain_nil, ?_, fun _ => ⟨by simp, hhead⟩⟩
    exact (List.isChain_append.1 (List.isChain_append.1 hco).2.1).2.1

/-- Moving the border between a block and the free block behind it. -/
theorem moveBorder (h : Inv m (l₁ ++ b :: d :: k₂)) (hb : b.free = false) (hd : d.free = true)
    (hsize : 0 < b.size + g) (hnext : 0 < d.size - g) {first : Bool}
    (hiff : first = true ↔ headerSlots + extent l₁ + b.size + 2 = m.firstFreeBlock) :
    ∃ l', Inv (OmrHeap.resetCursor
        (if first then (setBlocks m (headerSlots + extent l₁) (b.size + g) (d.size - g)).set 1
            (headerSlots + extent l₁ + (b.size + g) + 2)
          else setBlocks m (headerSlots + extent l₁) (b.size + g) (d.size - g))) l' ∧
      occupied headerSlots l' = occupied headerSlots (l₁ ++ b :: d :: k₂) := by
  have hp := (tiled_append.1 h.tiled).1.extent_nonneg
  have hheader : headerSlots = 4 := rfl
  have hhead : ∀ c ∈ k₂.head?, c.free = false := by
    have hco := h.coalesced
    rw [List.append_cons] at hco
    exact ((coalesced_middle.1 hco).2.2 hd).2
  refine ⟨l₁ ++ ([⟨b.size + g, false⟩, ⟨d.size - g, true⟩] ++ k₂),
    @resize m _ l₁ k₂ _ _ [b, d] h hsize hnext ?_ hhead ?_ ?_, ?_⟩
  · simp only [extent_cons, extent_nil]
    ring
  · intro i hi
    split_ifs
    · exact Slots.set_of_ne hi
    · rfl
  · rcases @firstFree_cases _ l₁ _ h with ⟨-, hlt, hne, hsame⟩ | ⟨hocc, -⟩
    · have hpos := h.middle.2.1
      have hfirst : first = false := by
        cases first with
        | false => rfl
        | true =>
          have := hiff.1 rfl
          omega
      rw [hsame, hfirst]
      exact setBlocks_of_outside hsize hnext (by omega)
    · have hfirst : headerSlots + extent l₁ + b.size + 2 = m.firstFreeBlock := by
        rw [h.first, firstFree_append_of_occupied hocc, firstFree_cons_occupied hb,
          firstFree_cons_free hd]
      rw [if_pos (hiff.2 hfirst), firstFree_append_of_occupied hocc, List.cons_append,
        firstFree_cons_occupied rfl, List.cons_append, firstFree_cons_free rfl]
      rfl
  · show occupied headerSlots (l₁ ++ ⟨b.size + g, false⟩ :: ⟨d.size - g, true⟩ :: k₂) = _
    rw [occupied_append, occupied_append, occupied_cons_occupied rfl, occupied_cons_free rfl,
      occupied_cons_occupied hb, occupied_cons_free hd]
    congr 3
    dsimp only
    ring

/-- A block takes over the free block behind it. -/
theorem consumeNext (h : Inv m (l₁ ++ b :: d :: k₂)) (hb : b.free = false) (hd : d.free = true)
    {size : ℤ} (hsize : size = b.size + (d.size + 2)) {first : Bool}
    (hiff : first = true ↔ headerSlots + extent l₁ + b.size + 2 = m.firstFreeBlock) :
    ∃ l', Inv (OmrHeap.resetCursor
        (if first then
          ((m.set (headerSlots + extent l₁) (-size)).set (headerSlots + extent l₁ + size + 1) (-size)).set
            1 (nextFree ((m.set (headerSlots + extent l₁) (-size)).set
              (headerSlots + extent l₁ + size + 1) (-size)) (m.heapSize - 1)
                (headerSlots + extent l₁ + size + 2))
          else (m.set (headerSlots + extent l₁) (-size)).set
            (headerSlots + extent l₁ + size + 1) (-size))) l' ∧
      occupied headerSlots l' = occupied headerSlots (l₁ ++ b :: d :: k₂) := by
  obtain ⟨hp, hpos, -, hheapSize, hnonneg⟩ := h.middle
  have hheader : headerSlots = 4 := rfl
  obtain ⟨hdpos, -, -, hk₂⟩ := (tiled_middle.1 h.tiled).2.2.2.2
  have hk₂nonneg := hk₂.extent_nonneg
  rw [extent_cons] at hheapSize
  have hco := h.coalesced
  generalize hm' : (m.set (headerSlots + extent l₁) (-size)).set
    (headerSlots + extent l₁ + size + 1) (-size) = m'
  have hout : ∀ i, i < headerSlots + extent l₁ ∨ headerSlots + extent l₁ + (size + 2) ≤ i →
      m' i = m i := by
    intro i hi
    rw [← hm']
    simp (disch := omega) only [Slots.set_of_ne]
  have htiled : Tiled m' headerSlots (l₁ ++ ⟨size, false⟩ :: k₂) := by
    refine @Tiled.replace _ _ _ _ _ [b, d] [⟨size, false⟩] h.tiled ?_ ?_ fun i hi hi' => hout i ?_
    · simp only [extent_cons, extent_nil]
      omega
    · rw [← hm']
      exact tiled_occupied (by omega)
    · simp only [extent_cons, extent_nil] at hi'
      omega
  have hnext : nextFree m' (m.heapSize - 1) (headerSlots + extent l₁ + size + 2) =
      firstFree (headerSlots + extent l₁ + size + 2) k₂ := by
    refine nextFree_eq (tiled_middle.1 htiled).2.2.2.2 ?_
    rw [hheapSize]
    omega
  refine ⟨l₁ ++ ⟨size, false⟩ :: k₂, h.reset ?_ ?_ ?_ (by simp) ?_ ?_, ?_⟩
  · split_ifs
    · rwa [tiled_set (by decide)]
    · exact htiled
  · show (if first = true then _ else _ : Slots) 0 = m 0
    split_ifs
    · rw [Slots.set_of_ne (by decide), hout 0 (by omega)]
    · rw [hout 0 (by omega)]
  · simp only [extent_append, extent_cons]
    omega
  · refine coalesced_middle.2 ⟨(coalesced_middle.1 hco).1, ?_, by simp⟩
    rw [List.append_cons] at hco
    exact (coalesced_middle.1 hco).2.1
  · rcases @firstFree_cases _ l₁ _ h with ⟨-, hlt, hne, hsame⟩ | ⟨hocc, -⟩
    · have hfirst : first = false := by
        cases first with
        | false => rfl
        | true =>
          have := hiff.1 rfl
          omega
      rw [hsame, hfirst]
      exact hout 1 (by omega)
    · have hfirst : headerSlots + extent l₁ + b.size + 2 = m.firstFreeBlock := by
        rw [h.first, firstFree_append_of_occupied hocc, firstFree_cons_occupied hb,
          firstFree_cons_free hd]
      rw [if_pos (hiff.2 hfirst), firstFree_append_of_occupied hocc, firstFree_cons_occupied rfl, hnext]
      rfl
  · rw [occupied_append, occupied_append, occupied_cons_occupied rfl, occupied_cons_occupied hb,
      occupied_cons_free hd]
    congr 3
    dsimp only
    omega

/-- The end of a block becomes a free block. -/
theorem cutOff (h : Inv m (l₁ ++ b :: l₂)) (hb : b.free = false) (hsize : 0 < b.size + g)
    (hg : g < -2) (hhead : ∀ c ∈ l₂.head?, c.free = false) :
    ∃ l', Inv (OmrHeap.resetCursor
        (if m.firstFreeBlock = 0 ∨ headerSlots + extent l₁ + (b.size + g) + 2 < m.firstFreeBlock then
          (setBlocks m (headerSlots + extent l₁) (b.size + g) (-g - 2)).set 1
            (headerSlots + extent l₁ + (b.size + g) + 2)
          else setBlocks m (headerSlots + extent l₁) (b.size + g) (-g - 2))) l' ∧
      occupied headerSlots l' = occupied headerSlots (l₁ ++ b :: l₂) := by
  have hp := (tiled_append.1 h.tiled).1.extent_nonneg
  have hheader : headerSlots = 4 := rfl
  refine ⟨l₁ ++ ([⟨b.size + g, false⟩, ⟨-g - 2, true⟩] ++ l₂),
    @resize m _ l₁ l₂ _ _ [b] h hsize (by omega) ?_ hhead ?_ ?_, ?_⟩
  · simp only [extent_cons, extent_nil]
    ring
  · intro i hi
    split_ifs
    · exact Slots.set_of_ne hi
    · rfl
  · rcases @firstFree_cases _ l₁ _ h with ⟨-, hlt, hne, hsame⟩ | ⟨hocc, -⟩
    · rw [hsame, if_neg (by omega)]
      exact setBlocks_of_outside hsize (by omega) (by omega)
    · -- all blocks up to this one are occupied
      have hbehind := @firstFree_cases _ (l₁ ++ [b]) l₂ (by rw [← List.append_cons]; exact h)
      rw [extent_append, extent_cons, extent_nil] at hbehind
      have hreset : m.firstFreeBlock = 0 ∨
          headerSlots + extent l₁ + (b.size + g) + 2 < m.firstFreeBlock := by
        rcases hbehind with ⟨⟨c, hc, hfree⟩, -⟩ | ⟨-, hzero | hle⟩
        · rcases List.mem_append.1 hc with hc | hc
          · rw [hocc c hc] at hfree
            cases hfree
          · rw [List.mem_singleton.1 hc, hb] at hfree
            cases hfree
        · exact Or.inl hzero
        · exact Or.inr (by omega)
      rw [if_pos hreset, firstFree_append_of_occupied hocc, List.cons_append,
        firstFree_cons_occupied rfl, List.cons_append, firstFree_cons_free rfl]
      rfl
  · show occupied headerSlots (l₁ ++ ⟨b.size + g, false⟩ :: ⟨-g - 2, true⟩ :: l₂) = _
    rw [occupied_append, occupied_append, occupied_cons_occupied rfl, occupied_cons_free rfl,
      occupied_cons_occupied hb]
    congr 3
    dsimp only
    ring

section Resize

variable (h : Inv m (l₁ ++ b :: l₂)) (hb : b.free = false)
include h hb

theorem block_tag : -m (headerSlots + extent l₁) = b.size := by
  rw [h.middle.2.2.1, Block.tag, if_neg (by simp [hb]), neg_neg]

omit hb in
/-- What the source knows about the block behind. -/
theorem next_cases : (l₂ = [] ∧ headerSlots + extent l₁ + b.size + 1 = m.heapSize - 1) ∨
    ∃ d k₂, l₂ = d :: k₂ ∧ headerSlots + extent l₁ + b.size + 1 ≠ m.heapSize - 1 ∧ 0 < d.size ∧
      m (headerSlots + extent l₁ + b.size + 2) = d.tag := by
  obtain ⟨hp, hpos, -, hheapSize, -⟩ := h.middle
  have hl₂ := (tiled_middle.1 h.tiled).2.2.2.2
  cases l₂ with
  | nil =>
    rw [extent_nil] at hheapSize
    exact Or.inl ⟨rfl, by omega⟩
  | cons d k₂ =>
    obtain ⟨hdpos, hdtop, -, hk₂⟩ := hl₂
    have := hk₂.extent_nonneg
    rw [extent_cons] at hheapSize
    exact Or.inr ⟨d, k₂, rfl, by omega, hdpos, hdtop⟩

/-- Growing into the free block behind. -/
theorem growBlock {d : Block} {k₂ : List Block} (hl₂ : l₂ = d :: k₂) (hd : d.free = true) (hg : 0 < g)
    {first : Bool}
    (hiff : first = true ↔ headerSlots + extent l₁ + b.size + 2 = m.firstFreeBlock) :
    ∃ l', Inv (OmrHeap.resetCursor (OmrHeap.growBlock m (headerSlots + extent l₁) g first)) l' ∧
      occupied headerSlots l' = occupied headerSlots (l₁ ++ b :: l₂) := by
  subst hl₂
  obtain ⟨hp, hpos, -, hheapSize, -⟩ := h.middle
  obtain ⟨hdpos, hdtop, -, hk₂⟩ := (tiled_middle.1 h.tiled).2.2.2.2
  have hk₂nonneg := hk₂.extent_nonneg
  have hdtag : d.tag = d.size := if_pos hd
  have htop := h.block_tag hb
  have hheader : headerSlots = 4 := rfl
  rw [hdtag] at hdtop
  rw [OmrHeap.growBlock]
  simp only [htop, hdtop]
  by_cases hres : d.size + 2 - g ≥ 3
  · simp only [if_pos hres]
    exact h.moveBorder hb hd (by omega) (by omega) hiff
  · simp only [if_neg hres]
    have hsame : ∀ v : ℤ, Slots.heapSize ((m.set (headerSlots + extent l₁) v).set
        (headerSlots + extent l₁ + (b.size + (g + (d.size + 2 - g))) + 1) v) = m.heapSize := by
      intro v
      show ((m.set _ _).set _ _) 0 = m 0
      simp (disch := omega) only [Slots.set_of_ne]
    simp only [hsame]
    exact h.consumeNext hb hd (by ring) hiff

/-- Shrinking a block. -/
theorem shrinkBlock (hg : g < 0) (hsize : 0 < b.size + g) {last first : Bool}
    (hlast : last = true ↔ headerSlots + extent l₁ + b.size + 1 = m.heapSize - 1)
    (hiff : last = false →
      (first = true ↔ headerSlots + extent l₁ + b.size + 2 = m.firstFreeBlock)) :
    ∃ l', Inv (OmrHeap.resetCursor
        (OmrHeap.shrinkBlock m (headerSlots + extent l₁) g last first)) l' ∧
      occupied headerSlots l' = occupied headerSlots (l₁ ++ b :: l₂) := by
  have htop := h.block_tag hb
  have hp := (tiled_append.1 h.tiled).1.extent_nonneg
  have hheader : headerSlots = 4 := rfl
  -- the block behind does not take the slots
  have hkeep : ¬ (last = false ∧ m (headerSlots + extent l₁ + b.size + 2) > 0) →
      (∀ c ∈ l₂.head?, c.free = false) →
      ∃ l', Inv (OmrHeap.resetCursor
        (OmrHeap.shrinkBlock m (headerSlots + extent l₁) g last first)) l' ∧
      occupied headerSlots l' = occupied headerSlots (l₁ ++ b :: l₂) := by
    intro hnot hhead
    rw [OmrHeap.shrinkBlock]
    simp only [htop, if_neg hnot]
    by_cases hcut : g < -2
    · have hfirst : Slots.firstFreeBlock (setBlocks m (headerSlots + extent l₁) (b.size + g) (-g - 2)) =
          m.firstFreeBlock := setBlocks_of_outside hsize (by omega) (by omega)
      simp only [if_pos hcut, hfirst]
      exact h.cutOff hb hsize hcut hhead
    · simp only [if_neg hcut]
      exact ⟨_, h.resetCursor, rfl⟩
  rcases h.next_cases with ⟨rfl, hend⟩ | ⟨d, k₂, rfl, hend, hdpos, hdtop⟩
  · refine hkeep ?_ (by simp)
    rw [hlast.2 hend]
    simp
  · have hlast' : last = false := by
      cases last with
      | false => rfl
      | true => exact absurd (hlast.1 rfl) hend
    cases hd : d.free with
    | false =>
      have hdtag : d.tag = -d.size := if_neg (by simp [hd])
      exact hkeep (by omega) (by simpa using hd)
    | true =>
      have hdtag : d.tag = d.size := if_pos hd
      rw [OmrHeap.shrinkBlock]
      simp only [htop, hdtop, hdtag, if_pos (show last = false ∧ d.size > 0 from ⟨hlast', hdpos⟩)]
      exact h.moveBorder hb hd hsize (by omega) (hiff hlast')

end Resize

/-! ## What is handed out -/

/-- Allocation hands out one more block, or nothing. -/
theorem allocate (h : Inv m l) (byteAmount : UInt64) :
    (OmrHeap.allocate m byteAmount = (none, m) ∧
        ∀ b ∈ l, b.free = true → b.size < slotsFor byteAmount) ∨
      ∃ a₁ e a₂ m', OmrHeap.allocate m byteAmount = (some (headerSlots + extent a₁ + 1), m') ∧
        Inv m' (a₁ ++ e :: a₂) ∧ e.free = false ∧ slotsFor byteAmount ≤ e.size ∧
        (∃ b ∈ l, b.free = true ∧ slotsFor byteAmount ≤ b.size) ∧
        headerSlots + extent a₁ + 1 ∉ occupied headerSlots l ∧
        ∀ a, a ∈ occupied headerSlots (a₁ ++ e :: a₂) ↔
          a = headerSlots + extent a₁ + 1 ∨ a ∈ occupied headerSlots l := by
  rcases h.allocate_cases byteAmount with hfail | ⟨l₁, b, l₂, m', rfl, hb, hfit, hrun, h'⟩
  · exact Or.inl hfail
  · have hsmall := slotsFor_pos byteAmount
    -- the new block is not there before
    have hnew : headerSlots + extent l₁ + 1 ∉ occupied headerSlots (l₁ ++ b :: l₂) := by
      obtain ⟨hl₁, hpos, -, -, hl₂⟩ := tiled_middle.1 h.tiled
      rw [occupied_append, occupied_cons_free hb, List.mem_append]
      rintro (ha | ha)
      · have := hl₁.occupied_bounds ha
        omega
      · have := hl₂.occupied_bounds ha
        omega
    right
    by_cases hres : b.size - slotsFor byteAmount ≥ 3
    · have hcarve : carve b (slotsFor byteAmount) =
          [⟨slotsFor byteAmount, false⟩, ⟨b.size - slotsFor byteAmount - 2, true⟩] := if_pos hres
      rw [hcarve, List.cons_append, List.cons_append, List.nil_append] at h'
      refine ⟨l₁, _, _, m', hrun, h', rfl, le_rfl, ⟨b, by simp, hb, hfit⟩, hnew, fun a => ?_⟩
      rw [occupied_append, occupied_cons_occupied rfl, occupied_cons_free rfl, occupied_append,
        occupied_cons_free hb]
      have hshift : headerSlots + extent l₁ + slotsFor byteAmount + 2 +
          (b.size - slotsFor byteAmount - 2) + 2 = headerSlots + extent l₁ + b.size + 2 := by ring
      simp only [hshift, List.mem_append, List.mem_cons]
      tauto
    · have hcarve : carve b (slotsFor byteAmount) = [⟨b.size, false⟩] := if_neg hres
      rw [hcarve, List.cons_append, List.nil_append] at h'
      refine ⟨l₁, _, _, m', hrun, h', rfl, hfit, ⟨b, by simp, hb, hfit⟩, hnew, fun a => ?_⟩
      rw [occupied_append, occupied_cons_occupied rfl, occupied_append, occupied_cons_free hb]
      simp only [List.mem_append, List.mem_cons]
      tauto

/-- Freeing takes one block back. -/
theorem free_occupied {address : ℤ} (h : Inv m l) (ha : address ∈ occupied headerSlots l) :
    ∃ l', Inv (OmrHeap.free m address) l' ∧
      ∀ a, a ∈ occupied headerSlots l' ↔ a ∈ occupied headerSlots l ∧ a ≠ address := by
  obtain ⟨l₁, b, l₂, rfl, hb, rfl⟩ := mem_occupied.1 ha
  obtain ⟨k, x, y, k₂, size, rfl, rfl, hfree, hsize, h'⟩ := h.free hb
  refine ⟨_, h', fun a => ?_⟩
  have hx : ∀ p, occupied p x = [] := fun p => occupied_of_free fun c hc => hfree c (by simp [hc])
  have hy : ∀ p, occupied p y = [] := fun p => occupied_of_free fun c hc => hfree c (by simp [hc])
  obtain ⟨hl₁, hpos, -, -, hl₂⟩ := tiled_middle.1 h.tiled
  have hxnonneg := (tiled_append.1 hl₁).2.extent_nonneg
  have hynonneg := (tiled_append.1 hl₂).1.extent_nonneg
  have hk := fun a => @Tiled.occupied_bounds _ _ _ (tiled_append.1 hl₁).1 a
  have hk₂ := fun a => @Tiled.occupied_bounds _ _ _ (tiled_append.1 hl₂).2 a
  rw [extent_append] at hk₂ ⊢
  have hshift : headerSlots + extent k + size + 2 =
      headerSlots + (extent k + extent x) + b.size + 2 + extent y := by
    rw [extent_append, extent_cons] at hsize
    omega
  rw [occupied_append, occupied_cons_free rfl, occupied_append, occupied_append, hx, List.append_nil,
    occupied_cons_occupied hb, occupied_append, hy, List.nil_append, extent_append]
  simp only [hshift, List.mem_append, List.mem_cons]
  constructor
  · rintro (ha | ha)
    · have := hk a ha
      exact ⟨Or.inl ha, by omega⟩
    · have := hk₂ a ha
      exact ⟨Or.inr (Or.inr ha), by omega⟩
  · rintro ⟨ha | ha | ha, hne⟩
    · exact Or.inl ha
    · exact absurd ha hne
    · exact Or.inr ha

/-- Writing between the tags of a block. -/
theorem write_inside {p e : ℤ} (h : Inv m (l₁ ++ b :: l₂))
    (hout : ∀ i, ¬ (p ≤ i ∧ i < p + e) → m' i = m i) (hp : p = headerSlots + extent l₁ + 1)
    (he : e ≤ b.size) : Inv m' (l₁ ++ b :: l₂) := by
  have hp' := h.middle.1
  have hheader : ∀ i, i < 4 → m' i = m i := fun i hi => hout i (by omega)
  refine h.update (h.tiled.congr_inside fun i hi => hout i (by omega)) (hheader 0 (by decide)) rfl
    h.nonempty h.coalesced ((hheader 1 (by decide)).trans h.first) ?_
  rcases h.cursor with ⟨hzero, hcursor⟩ | ⟨k₁, k₂, hk, hne, hslot, hbelow⟩
  · exact Or.inl ⟨(hheader 1 (by decide)).trans hzero, (hheader 2 (by decide)).trans hcursor⟩
  · have h3 : m'.largestAllocSizeVisited = m.largestAllocSizeVisited := hheader 3 (by decide)
    refine Or.inr ⟨k₁, k₂, hk, hne, (hheader 2 (by decide)).trans hslot, ?_⟩
    rw [h3]
    exact hbelow

/-- Reallocation leaves the blocks handed out as they are, up to their sizes, or
replaces the block by a new one. -/
theorem reallocate {address : ℤ} (h : Inv m l) (ha : address ∈ occupied headerSlots l)
    (byteAmount : UInt64) :
    ∃ l', Inv (OmrHeap.reallocate m address byteAmount).2 l' ∧
      (((OmrHeap.reallocate m address byteAmount).1 = none ∨
          (OmrHeap.reallocate m address byteAmount).1 = some address) ∧
        occupied headerSlots l' = occupied headerSlots l ∨
      ∃ new, (OmrHeap.reallocate m address byteAmount).1 = some new ∧
        new ∉ occupied headerSlots l ∧
        ∀ a, a ∈ occupied headerSlots l' ↔ (a = new ∨ a ∈ occupied headerSlots l) ∧ a ≠ address) := by
  obtain ⟨l₁, b, l₂, rfl, hb, rfl⟩ := mem_occupied.1 ha
  have htop := h.block_tag hb
  have hp := h.middle.1
  generalize hlast : decide (headerSlots + extent l₁ + b.size + 1 = m.heapSize - 1) = last
  generalize hfirst : decide (last = false ∧ m.firstFreeBlock ≠ 0 ∧
    headerSlots + extent l₁ + b.size + 2 = m.firstFreeBlock) = first
  have hlastIff : last = true ↔ headerSlots + extent l₁ + b.size + 1 = m.heapSize - 1 := by
    rw [← hlast, decide_eq_true_eq]
  have hfirstIff : last = false →
      (first = true ↔ headerSlots + extent l₁ + b.size + 2 = m.firstFreeBlock) := by
    intro hl
    have hpos := h.middle.2.1
    rw [← hfirst, decide_eq_true_eq]
    constructor
    · exact fun hall => hall.2.2
    · exact fun heq => ⟨hl, by omega, heq⟩
  rw [OmrHeap.reallocate, add_sub_cancel_right]
  rcases requestSlots_cases byteAmount with ⟨hnone, -⟩ | hsome
  · rw [hnone]
    exact ⟨_, h, Or.inl ⟨Or.inl rfl, rfl⟩⟩
  rw [hsome]
  have hrequest := slotsFor_pos byteAmount
  simp only [htop, hlast, hfirst]
  by_cases hzero : slotsFor byteAmount - b.size = 0
  · simp only [if_pos hzero]
    exact ⟨_, h, Or.inl ⟨Or.inr trivial, rfl⟩⟩
  simp only [if_neg hzero]
  by_cases hgrow : slotsFor byteAmount - b.size > 0
  · simp only [if_pos hgrow]
    by_cases hmove : last = true ∨ m (headerSlots + extent l₁ + b.size + 2) < 0 ∨
        m (headerSlots + extent l₁ + b.size + 2) + 2 < slotsFor byteAmount - b.size
    · simp only [if_pos hmove]
      rcases h.allocate byteAmount with ⟨hfail, -⟩ | ⟨a₁, e, a₂, m', hrun, h', he, hfit, -, hnew, hocc⟩
      · rw [hfail]
        exact ⟨_, h.resetCursor, Or.inl ⟨Or.inl rfl, rfl⟩⟩
      · rw [hrun]
        have hcopy : Inv (copySlots m' (headerSlots + extent a₁ + 1) (headerSlots + extent l₁ + 1)
            b.size) (a₁ ++ e :: a₂) :=
          h'.write_inside (fun i hi => if_neg hi) rfl (by omega)
        obtain ⟨l', hfree, hocc'⟩ := hcopy.free_occupied ((hocc _).2 (Or.inr ha))
        refine ⟨l', hfree.resetCursor, Or.inr ⟨_, rfl, hnew, fun a => ?_⟩⟩
        rw [hocc', hocc]
    · simp only [if_neg hmove]
      push Not at hmove
      obtain ⟨hnotLast, hnext, hroom⟩ := hmove
      rcases h.next_cases with ⟨-, hend⟩ | ⟨d, k₂, hl₂, -, hdpos, hdtop⟩
      · exact absurd (hlastIff.2 hend) hnotLast
      · have hd : d.free = true := by
          by_contra hd
          have hdtag : d.tag = -d.size := if_neg hd
          omega
        obtain ⟨l', h', hocc⟩ := h.growBlock hb hl₂ hd hgrow (hfirstIff (by simpa using hnotLast))
        exact ⟨l', h', Or.inl ⟨Or.inr trivial, hocc⟩⟩
  · simp only [if_neg hgrow]
    have hneg : slotsFor byteAmount - b.size < 0 := by omega
    obtain ⟨l', h', hocc⟩ := h.shrinkBlock hb hneg (by omega) hlastIff hfirstIff
    exact ⟨l', h', Or.inl ⟨Or.inr trivial, hocc⟩⟩

end Inv

end OMR.Port.OmrHeap
