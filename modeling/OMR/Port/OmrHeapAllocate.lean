import OMR.Port.OmrHeapInvariant

/-!
# Allocation keeps the invariant

Allocation cuts a free block in two or hands it out whole. In both cases the
cursor of the heap is left at a block that no large enough free block precedes.
-/

namespace OMR.Port.OmrHeap

open OMR.Lib Slots

/-- What becomes of a free block from which `n` slots are taken. -/
def carve (b : Block) (n : ℤ) : List Block :=
  if b.size - n ≥ 3 then [⟨n, false⟩, ⟨b.size - n - 2, true⟩] else [⟨b.size, false⟩]

theorem extent_carve (b : Block) (n : ℤ) : extent (carve b n) = b.size + 2 := by
  rw [carve]
  split_ifs
  · simp only [extent_cons, extent_nil]
    ring
  · simp

section Cursor

variable {m m' : Slots} {b : Block} {l₁ l₂ : List Block}

/-- Handing out a whole block does not disturb the cursor. -/
theorem CursorAt.occupy (h : CursorAt m (l₁ ++ b :: l₂)) (hslot : m'.lastAllocSlot = m.lastAllocSlot)
    (hsize : m'.largestAllocSizeVisited = m.largestAllocSizeVisited) :
    CursorAt m' (l₁ ++ ⟨b.size, false⟩ :: l₂) := by
  obtain ⟨k₁, k₂, hk, hne, hcursor, hbelow⟩ := h
  rw [← hslot] at hcursor
  simp only [← hsize] at hbelow
  rcases cut_cases hk with ⟨a, rfl, rfl⟩ | ⟨c, rfl, rfl⟩
  · exact ⟨k₁, a ++ ⟨b.size, false⟩ :: l₂, by simp, by simp, hcursor, hbelow⟩
  · refine ⟨l₁ ++ ⟨b.size, false⟩ :: c, k₂, by simp, hne, by simpa using hcursor, ?_⟩
    intro d hd hfree
    rcases List.mem_append.1 hd with hd | hd
    · exact hbelow d (by simp [hd]) hfree
    · rcases List.mem_cons.1 hd with rfl | hd
      · cases hfree
      · exact hbelow d (by simp [hd]) hfree

/-- A cursor at the lowest free block. -/
theorem cursorAt_firstFree {l : List Block} (hfirst : m.lastAllocSlot = firstFree headerSlots l)
    (hfree : ∃ b ∈ l, b.free = true) : CursorAt m l := by
  obtain ⟨l₁, b, l₂, rfl, hocc, hb, heq⟩ := @exists_firstFree headerSlots _ hfree
  refine ⟨l₁, b :: l₂, rfl, by simp, by rw [hfirst, heq], fun c hc hfree => ?_⟩
  rw [hocc c hc] at hfree
  cases hfree

end Cursor

section Coalesced

variable {b : Block} {l₁ l₂ : List Block}

theorem coalesced_middle : Coalesced (l₁ ++ b :: l₂) ↔ Coalesced l₁ ∧ Coalesced l₂ ∧
    (b.free = true → (∀ c ∈ l₁.getLast?, c.free = false) ∧ ∀ c ∈ l₂.head?, c.free = false) := by
  simp only [Coalesced, List.isChain_append, List.isChain_cons, List.head?_cons]
  simp
  grind

end Coalesced

namespace Inv

variable {m : Slots} {l l₁ l₂ : List Block} {b : Block} {n g : ℤ}

theorem coalesced_carve (h : Coalesced (l₁ ++ b :: l₂)) (hb : b.free = true) :
    Coalesced (l₁ ++ (carve b n ++ l₂)) := by
  obtain ⟨h₁, h₂, hfree⟩ := coalesced_middle.1 h
  obtain ⟨-, hnext⟩ := hfree hb
  rw [carve]
  split_ifs
  · refine coalesced_middle.2 ⟨h₁, ?_, by simp⟩
    exact (@coalesced_middle _ [] _).2 ⟨List.isChain_nil, h₂, fun _ => ⟨by simp, hnext⟩⟩
  · exact coalesced_middle.2 ⟨h₁, h₂, by simp⟩

/-- A store in front of the blocks. -/
theorem tiled_set {p i v : ℤ} (h : i < p) : Tiled (m.set i v) p l ↔ Tiled m p l := by
  constructor
  · intro ht
    exact ht.congr fun j hj _ => (Slots.set_of_ne (by omega)).symm
  · intro ht
    exact ht.congr fun j hj _ => Slots.set_of_ne (by omega)

/-- The tags of an occupied block. -/
theorem tiled_occupied {p size : ℤ} (hsize : 0 < size) :
    Tiled ((m.set p (-size)).set (p + size + 1) (-size)) p [⟨size, false⟩] := by
  refine ⟨hsize, ?_, ?_, trivial⟩
  · simp (disch := omega) only [Slots.set_of_ne, Slots.set_self, Block.tag_occupied]
  · simp only [Slots.set_self, Block.tag_occupied]

/-- The tags of an occupied block and a free one behind it. -/
theorem tiled_setBlocks {p size next : ℤ} (hsize : 0 < size) (hnext : 0 < next) :
    Tiled (setBlocks m p size next) p [⟨size, false⟩, ⟨next, true⟩] := by
  rw [setBlocks]
  refine ⟨hsize, ?_, ?_, hnext, ?_, ?_, trivial⟩
  · simp (disch := omega) only [Slots.set_of_ne, Slots.set_self, Block.tag_occupied]
  · dsimp only
    simp (disch := omega) only [Slots.set_of_ne, Slots.set_self, Block.tag_occupied]
  · dsimp only
    simp (disch := omega) only [Slots.set_of_ne, Slots.set_self, Block.tag_free]
  · simp only [Slots.set_self, Block.tag_free]

theorem setBlocks_of_outside {p size next i : ℤ} (hsize : 0 < size) (hnext : 0 < next)
    (hi : i < p ∨ p + size + 2 + next + 2 ≤ i) : setBlocks m p size next i = m i := by
  rw [setBlocks]
  simp (disch := omega) only [Slots.set_of_ne]

/-- The position of a block in the middle, and what the slots hold there. -/
theorem middle (h : Inv m (l₁ ++ b :: l₂)) : 4 ≤ headerSlots + extent l₁ ∧ 0 < b.size ∧
    m (headerSlots + extent l₁) = b.tag ∧
      m.heapSize = headerSlots + extent l₁ + b.size + 2 + extent l₂ ∧ 0 ≤ extent l₂ := by
  obtain ⟨hl₁, hpos, htop, -, hl₂⟩ := tiled_middle.1 h.tiled
  have hnonneg := hl₁.extent_nonneg
  refine ⟨by rw [headerSlots]; omega, hpos, htop, ?_, hl₂.extent_nonneg⟩
  rw [h.size, extent_append, extent_cons]
  ring

section Take

variable (h : Inv m (l₁ ++ b :: l₂)) (hb : b.free = true)
include h hb

/-- The block is the first free one. -/
theorem firstFreeBlock_eq_iff :
    headerSlots + extent l₁ = m.firstFreeBlock ↔ ∀ c ∈ l₁, c.free = false := by
  rw [h.first]
  exact firstFree_middle_eq_iff h.tiled hb

theorem exists_free_before (hfirst : headerSlots + extent l₁ ≠ m.firstFreeBlock) :
    ∃ c ∈ l₁, c.free = true := by
  by_contra hnone
  push Not at hnone
  exact hfirst ((h.firstFreeBlock_eq_iff hb).2 fun c hc => by simpa using hnone c hc)

omit hb in
theorem tiled_carve {m' : Slots} (hmid : Tiled m' (headerSlots + extent l₁) (carve b n))
    (hout : ∀ i, i < headerSlots + extent l₁ ∨ headerSlots + extent l₁ + (b.size + 2) ≤ i →
      m' i = m i) : Tiled m' headerSlots (l₁ ++ (carve b n ++ l₂)) := by
  refine @Tiled.replace _ _ _ _ _ [b] _ h.tiled ?_ hmid fun i _ hi => hout i ?_
  · rw [extent_carve]
    simp
  · simpa using hi

/-- The blocks after slots were taken from one. -/
theorem of_carve {m' : Slots} (htiled : Tiled m' headerSlots (l₁ ++ (carve b n ++ l₂)))
    (hsize : m'.heapSize = m.heapSize)
    (hfirst : m'.firstFreeBlock = firstFree headerSlots (l₁ ++ (carve b n ++ l₂)))
    (hcursor : CursorAt m' (l₁ ++ (carve b n ++ l₂))) : Inv m' (l₁ ++ (carve b n ++ l₂)) := by
  refine h.update htiled hsize ?_ ?_ (coalesced_carve h.coalesced hb) hfirst (Or.inr hcursor)
  · rw [extent_append, extent_append, extent_carve, extent_append, extent_cons]
  · rw [carve]
    split_ifs <;> simp

/-- Taking slots from a free block of which a free block is left. -/
theorem takeBlock_cut (hn : 1 ≤ n) (hres : b.size - n ≥ 3)
    (hg : ∀ c ∈ l₁, c.free = true → c.size ≤ g) :
    Inv (takeBlock m (headerSlots + extent l₁) n g) (l₁ ++ (carve b n ++ l₂)) := by
  obtain ⟨hp, hpos, htop, hsize, hnonneg⟩ := h.middle
  have htag : b.tag = b.size := if_pos hb
  rw [htag] at htop
  have hcarve : carve b n = [⟨n, false⟩, ⟨b.size - n - 2, true⟩] := if_pos hres
  have hset : (((m.set (headerSlots + extent l₁) (-n)).set (headerSlots + extent l₁ + n + 1) (-n)).set
      (headerSlots + extent l₁ + n + 2) (b.size - n - 2)).set
        (headerSlots + extent l₁ + b.size + 1) (b.size - n - 2) =
      setBlocks m (headerSlots + extent l₁) n (b.size - n - 2) := by
    rw [setBlocks]
    congr 1
    ring
  have htiled : Tiled (setBlocks m (headerSlots + extent l₁) n (b.size - n - 2)) headerSlots
      (l₁ ++ (carve b n ++ l₂)) := by
    refine h.tiled_carve ?_ fun i hi => setBlocks_of_outside (by omega) (by omega) (by omega)
    rw [hcarve]
    exact tiled_setBlocks (by omega) (by omega)
  have hheader : ∀ i, i < 4 → setBlocks m (headerSlots + extent l₁) n (b.size - n - 2) i = m i :=
    fun i hi => setBlocks_of_outside (by omega) (by omega) (by omega)
  -- the cursor is put on what is left of the block
  have hcursor : ∀ {m' : Slots}, m'.lastAllocSlot = headerSlots + extent l₁ + n + 2 →
      (∀ c ∈ l₁, c.free = true → c.size ≤ m'.largestAllocSizeVisited) →
      CursorAt m' (l₁ ++ (carve b n ++ l₂)) := by
    intro m' hslot hbelow
    refine ⟨l₁ ++ [⟨n, false⟩], ⟨b.size - n - 2, true⟩ :: l₂, by simp [hcarve], by simp, ?_, ?_⟩
    · rw [hslot, extent_append, extent_cons, extent_nil]
      ring
    · intro c hc hfree
      rcases List.mem_append.1 hc with hc | hc
      · exact hbelow c hc hfree
      · rw [List.mem_singleton.1 hc] at hfree
        cases hfree
  rw [takeBlock]
  simp only [htop]
  rw [if_pos hres, hset]
  by_cases hfirst : headerSlots + extent l₁ = m.firstFreeBlock
  · rw [if_pos hfirst]
    have hocc := (h.firstFreeBlock_eq_iff hb).1 hfirst
    refine h.of_carve hb ?_ (hheader 0 (by omega)) ?_ (hcursor rfl fun c hc hfree => ?_)
    · rwa [tiled_set (by decide), tiled_set (by decide), tiled_set (by decide)]
    · rw [firstFree_append_of_occupied hocc, hcarve, List.cons_append, firstFree_cons_occupied rfl,
        List.cons_append, firstFree_cons_free rfl]
      rfl
    · rw [hocc c hc] at hfree
      cases hfree
  · rw [if_neg hfirst]
    have hsome := h.exists_free_before hb hfirst
    refine h.of_carve hb ?_ (hheader 0 (by omega)) ?_ (hcursor rfl hg)
    · rwa [tiled_set (by decide), tiled_set (by decide)]
    · rw [firstFree_append_of_free hsome, ← @firstFree_append_of_free _ _ (b :: l₂) hsome, ← h.first]
      exact hheader 1 (by omega)

/-- Taking a free block as a whole. -/
theorem takeBlock_whole (hres : ¬ b.size - n ≥ 3) :
    Inv (takeBlock m (headerSlots + extent l₁) n g) (l₁ ++ (carve b n ++ l₂)) := by
  obtain ⟨hp, hpos, htop, hsize, hnonneg⟩ := h.middle
  have htag : b.tag = b.size := if_pos hb
  rw [htag] at htop
  have hcarve : carve b n = [⟨b.size, false⟩] := if_neg hres
  have hlist : l₁ ++ (carve b n ++ l₂) = l₁ ++ ⟨b.size, false⟩ :: l₂ := by rw [hcarve]; rfl
  rw [takeBlock]
  simp only [htop]
  rw [if_neg hres]
  generalize hm' : (m.set (headerSlots + extent l₁) (-b.size)).set
    (headerSlots + extent l₁ + b.size + 1) (-b.size) = m'
  have hout : ∀ i, i < headerSlots + extent l₁ ∨ headerSlots + extent l₁ + (b.size + 2) ≤ i →
      m' i = m i := by
    intro i hi
    rw [← hm']
    simp (disch := omega) only [Slots.set_of_ne]
  have htiled : Tiled m' headerSlots (l₁ ++ (carve b n ++ l₂)) := by
    refine h.tiled_carve ?_ hout
    rw [hcarve, ← hm']
    exact tiled_occupied hpos
  have hheader : ∀ i, i < 4 → m' i = m i := fun i hi => hout i (by omega)
  have hcursor : CursorAt m (l₁ ++ b :: l₂) := by
    rcases h.cursor with ⟨hfull, -⟩ | hcursor
    · have := h.firstFreeBlock_eq_zero_iff.1 hfull b (by simp)
      rw [hb] at this
      cases this
    · exact hcursor
  by_cases hfirst : headerSlots + extent l₁ = m.firstFreeBlock
  · rw [if_pos hfirst]
    have hocc := (h.firstFreeBlock_eq_iff hb).1 hfirst
    have hnext : nextFree m' (m'.heapSize - 1) (headerSlots + extent l₁ + b.size + 2) =
        firstFree headerSlots (l₁ ++ (carve b n ++ l₂)) := by
      rw [hlist, firstFree_append_of_occupied hocc, firstFree_cons_occupied rfl]
      have htail := (tiled_middle.1 (hlist ▸ htiled)).2.2.2.2
      refine nextFree_eq htail ?_
      show m' 0 - 1 = _
      rw [hheader 0 (by omega), show m 0 = m.heapSize from rfl, hsize]
    rw [hnext]
    by_cases hzero : firstFree headerSlots (l₁ ++ (carve b n ++ l₂)) = 0
    · rw [if_pos hzero]
      refine h.of_carve hb ?_ (hheader 0 (by omega)) ?_ ?_
      · rwa [tiled_set (by decide)]
      · rw [hzero]
        rfl
      · -- the heap is full now, and the cursor stays where it was
        rw [hlist]
        exact hcursor.occupy (hheader 2 (by omega)) (hheader 3 (by omega))
    · rw [if_neg hzero]
      refine h.of_carve hb ?_ (hheader 0 (by omega)) rfl ?_
      · rwa [tiled_set (by decide), tiled_set (by decide), tiled_set (by decide)]
      · refine cursorAt_firstFree rfl ?_
        by_contra hnone
        push Not at hnone
        exact hzero (firstFree_eq_zero fun c hc => by simpa using hnone c hc)
  · rw [if_neg hfirst]
    have hsome := h.exists_free_before hb hfirst
    refine h.of_carve hb htiled (hheader 0 (by omega)) ?_ ?_
    · rw [firstFree_append_of_free hsome, ← @firstFree_append_of_free _ _ (b :: l₂) hsome, ← h.first]
      exact hheader 1 (by omega)
    · rw [hlist]
      exact hcursor.occupy (hheader 2 (by omega)) (hheader 3 (by omega))

end Take

/-- Allocation fails exactly when no free block is large enough, and then changes
nothing; otherwise it takes slots from a free block. -/
theorem allocate_cases (h : Inv m l) (byteAmount : UInt64) :
    (allocate m byteAmount = (none, m) ∧ ∀ b ∈ l, b.free = true → b.size < slotsFor byteAmount) ∨
      ∃ l₁ b l₂ m', l = l₁ ++ b :: l₂ ∧ b.free = true ∧ slotsFor byteAmount ≤ b.size ∧
        allocate m byteAmount = (some (headerSlots + extent l₁ + 1), m') ∧
        Inv m' (l₁ ++ (carve b (slotsFor byteAmount) ++ l₂)) := by
  have hfits := h.fits
  rw [allocate]
  by_cases hfull : m.firstFreeBlock = 0
  · rw [if_pos hfull]
    refine Or.inl ⟨rfl, fun b hb hfree => ?_⟩
    rw [h.firstFreeBlock_eq_zero_iff.1 hfull b hb] at hfree
    cases hfree
  rw [if_neg hfull]
  rcases requestSlots_cases byteAmount with ⟨hnone, hslots⟩ | hsome
  · rw [hnone]
    refine Or.inl ⟨rfl, fun b hb _ => ?_⟩
    have := h.size_lt hb
    rw [hslots]
    omega
  · rw [hsome]
    dsimp only
    by_cases hlarge : slotsFor byteAmount > m.heapSize
    · rw [if_pos hlarge]
      refine Or.inl ⟨rfl, fun b hb _ => ?_⟩
      have := h.size_lt hb
      omega
    · rw [if_neg hlarge]
      rcases h.search_spec (n := slotsFor byteAmount) hfull with
        ⟨hnone, hall⟩ | ⟨l₁, b, l₂, g, hl, hb, hfit, hfind, hvisited⟩
      · refine Or.inl ⟨?_, hall⟩
        generalize (if slotsFor byteAmount ≤ m.largestAllocSizeVisited then
            findFit m (m.heapSize - 1) (slotsFor byteAmount) m.firstFreeBlock 0
          else findFit m (m.heapSize - 1) (slotsFor byteAmount) m.lastAllocSlot
            m.largestAllocSizeVisited) = found at hnone ⊢
        obtain ⟨f, g⟩ := found
        rw [show f = none from hnone]
      · refine Or.inr ⟨l₁, b, l₂, takeBlock m (headerSlots + extent l₁) (slotsFor byteAmount) g, hl,
          hb, hfit, by rw [hfind], ?_⟩
        subst hl
        by_cases hres : b.size - slotsFor byteAmount ≥ 3
        · exact h.takeBlock_cut hb (slotsFor_pos byteAmount) hres hvisited
        · exact h.takeBlock_whole hb hres

end Inv

end OMR.Port.OmrHeap
