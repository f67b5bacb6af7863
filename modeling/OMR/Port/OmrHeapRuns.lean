import OMR.Port.OmrHeapReallocate

/-!
# The heap over whole runs

A run starts with a successful `omrheap_create` and goes on with calls for blocks
that were handed out and not freed; the owners may write to their blocks. The one
step that can break the heap is `omrheap_grow` on a full heap whose cursor a
reallocation has put on slot 0.
-/

namespace OMR.Port.OmrHeap

open OMR.Lib Slots

/-- A new heap is one free block. -/
theorem create_inv {m m' : Slots} {heapBase heapSize : UInt64}
    (h : create m heapBase heapSize = some m') :
    ∃ size, Inv m' [⟨size, true⟩] := by
  simp only [create] at h
  split_ifs at h with hnull hsmall hsmall'
  obtain rfl := Option.some.inj h
  generalize hadj : alignmentRoundDown (heapSize - (alignmentRoundUp heapBase - heapBase)) = adjusted
    at *
  have hlt := adjusted.toNat_lt
  have hslots : ((adjusted / 8).toNat : ℤ) = (adjusted.toNat / 8 : ℕ) := by
    rw [UInt64.toNat_div]
    rfl
  have hmul : adjusted.toNat % 8 = 0 := by
    rw [← hadj, toNat_alignmentRoundDown]
    omega
  have hlarge : 48 < adjusted.toNat := by
    have := UInt64.lt_iff_toNat_lt.1 (UInt64.not_le.1 hsmall')
    exact this
  rw [hslots]
  generalize hn : ((adjusted.toNat / 8 : ℕ) : ℤ) = n
  have hnge : 7 ≤ n := by omega
  have hnlt : n < 2 ^ 61 := by omega
  generalize hm' : (((((m.set 0 n).set 1 headerSlots).set headerSlots (n - 6)).set (n - 1) (n - 6)).set 2
    headerSlots).set 3 (n - 6) = m'
  have hread : m' 0 = n ∧ m' 1 = 4 ∧ m' 2 = 4 ∧ m' 4 = n - 6 ∧ m' (n - 1) = n - 6 := by
    rw [← hm']
    simp only [headerSlots]
    simp (disch := omega) only [Slots.set_of_ne, Slots.set_self, and_self]
  obtain ⟨h0, h1, h2, h4, hend⟩ := hread
  refine ⟨n - 6, ⟨by dsimp only; omega, h4, ?_, trivial⟩, ?_, ?_, by simp, List.isChain_singleton _,
    h1, Or.inr ⟨[], [⟨n - 6, true⟩], rfl, by simp, ?_, by simp⟩⟩
  · rw [Block.tag_free, ← hend]
    congr 1
    simp only [headerSlots]
    omega
  · show m' 0 = _
    rw [h0]
    simp only [extent_cons, extent_nil, headerSlots]
    omega
  · show m' 0 < _
    rw [h0]
    exact hnlt
  · exact h2

namespace Inv

variable {m : Slots} {l : List Block}

/-- The last slot of the heap is the second tag of the last block. -/
theorem exists_last (h : Inv m l) : ∃ k c, l = k ++ [c] ∧ m (m.heapSize - 1) = c.tag := by
  obtain ⟨k, c, rfl⟩ : ∃ k c, l = k ++ [c] := by
    rcases List.eq_nil_or_concat l with hl | ⟨k, c, hl⟩
    · exact absurd hl h.nonempty
    · exact ⟨k, c, by rw [hl, List.concat_eq_append]⟩
  refine ⟨k, c, rfl, ?_⟩
  obtain ⟨-, -, -, hbottom, -⟩ := tiled_middle.1 h.tiled
  rw [← hbottom, h.middle.2.2.2.1, extent_nil]
  congr 1
  ring

/-- Growth adds a free block, or slots to the free block at the end. -/
theorem grow (h : Inv m l) {growAmount : UInt64} (hfits : m.heapSize + growSlots growAmount < 2 ^ 61)
    (hcursor : CursorAt m l) :
    ∃ l', Inv (OmrHeap.grow m growAmount).2 l' ∧ occupied headerSlots l' = occupied headerSlots l := by
  rw [OmrHeap.grow]
  generalize growSlots growAmount = n at *
  by_cases hn : n ≤ 4
  · simp only [if_pos hn]
    exact ⟨l, h, rfl⟩
  simp only [if_neg hn]
  obtain ⟨k, c, rfl, hlast⟩ := h.exists_last
  obtain ⟨hp, hcpos, hctop, hheapSize, -⟩ := h.middle
  have hk := (tiled_append.1 h.tiled).1
  rw [extent_nil] at hheapSize
  have hco := h.coalesced
  have hheader : headerSlots = 4 := rfl
  -- what is common to both cases: the header of the grown heap
  have hgrown : ∀ {m' : Slots} {l' : List Block}, (∀ i, i < 4 → m' i = m i) →
      Tiled m' headerSlots l' → extent l' = extent (k ++ [c]) + n → l' ≠ [] → Coalesced l' →
      (m.firstFreeBlock = 0 → firstFree headerSlots l' = m.heapSize) →
      (m.firstFreeBlock ≠ 0 → firstFree headerSlots l' = m.firstFreeBlock) →
      (∀ l₁ l₂, k ++ [c] = l₁ ++ l₂ → l₂ ≠ [] → ∃ l₃, l₃ ≠ [] ∧ l' = l₁ ++ l₃) →
      Inv ((if m.firstFreeBlock = 0 then m'.set 1 m.heapSize else m').set 0 (m.heapSize + n)) l' := by
    intro m' l' hout htiled hextent hne' hco' hfull hfree hcut
    refine ⟨?_, ?_, hfits, hne', hco', ?_, Or.inr ?_⟩
    · rw [tiled_set (by decide)]
      split_ifs
      · rwa [tiled_set (by decide)]
      · exact htiled
    · rw [hextent, ← add_assoc, ← h.size]
      rfl
    · show (if m.firstFreeBlock = 0 then m'.set 1 m.heapSize else m').set 0 (m.heapSize + n) 1 = _
      rw [Slots.set_of_ne (by decide)]
      split_ifs with hzero
      · rw [Slots.set_self, hfull hzero]
      · rw [hfree hzero]
        exact hout 1 (by decide)
    · obtain ⟨l₁, l₂, hl, hne, hslot, hbelow⟩ := hcursor
      obtain ⟨l₃, hne₃, rfl⟩ := hcut l₁ l₂ hl hne
      refine ⟨l₁, l₃, rfl, hne₃, ?_, ?_⟩
      · rw [← hslot]
        show (if m.firstFreeBlock = 0 then m'.set 1 m.heapSize else m').set 0 (m.heapSize + n) 2 = m 2
        rw [Slots.set_of_ne (by decide), ← hout 2 (by decide)]
        split_ifs
        · exact Slots.set_of_ne (by decide)
        · rfl
      · have h3 : Slots.largestAllocSizeVisited ((if m.firstFreeBlock = 0 then m'.set 1 m.heapSize
            else m').set 0 (m.heapSize + n)) = m.largestAllocSizeVisited := by
          show (if m.firstFreeBlock = 0 then m'.set 1 m.heapSize else m').set 0 (m.heapSize + n) 3 = m 3
          rw [Slots.set_of_ne (by decide), ← hout 3 (by decide)]
          split_ifs
          · exact Slots.set_of_ne (by decide)
          · rfl
        rw [h3]
        exact hbelow
  cases hc : c.free with
  | false =>
    have hctag : c.tag = -c.size := if_neg (by simp [hc])
    have hneg : m (m.heapSize - 1) < 0 := by omega
    simp only [if_pos hneg]
    have hout : ∀ i, i < m.heapSize → ((m.set m.heapSize (n - 2)).set (m.heapSize + n - 1) (n - 2)) i =
        m i := by
      intro i hi
      simp (disch := omega) only [Slots.set_of_ne]
    refine ⟨(k ++ [c]) ++ [⟨n - 2, true⟩], hgrown (fun i hi => hout i (by omega)) ?_ ?_ (by simp) ?_
      ?_ ?_ ?_, ?_⟩
    · refine tiled_append.2 ⟨h.tiled.congr fun i _ hi => hout i (by rw [h.size]; exact hi), ?_⟩
      rw [← h.size]
      refine ⟨by dsimp only; omega, ?_, ?_, trivial⟩
      · simp (disch := omega) only [Slots.set_of_ne, Slots.set_self, Block.tag_free]
      · rw [show m.heapSize + (⟨n - 2, true⟩ : Block).size + 1 = m.heapSize + n - 1 by
          dsimp only; omega]
        simp only [Slots.set_self, Block.tag_free]
    · rw [extent_append, extent_cons, extent_nil]
      ring
    · exact coalesced_middle.2 ⟨hco, List.isChain_nil, fun _ => ⟨by simpa using hc, by simp⟩⟩
    · intro hzero
      rw [firstFree_append_of_occupied (h.firstFreeBlock_eq_zero_iff.1 hzero), ← h.size,
        firstFree_cons_free rfl]
    · intro hfree
      rw [firstFree_append_of_free (h.exists_free hfree), ← h.first]
    · intro l₁ l₂ hl _
      exact ⟨l₂ ++ [⟨n - 2, true⟩], by simp, by rw [hl, List.append_assoc]⟩
    · rw [occupied_append, occupied_cons_free rfl]
      simp [occupied]
  | true =>
    have hctag : c.tag = c.size := if_pos hc
    have hnonneg : ¬ m (m.heapSize - 1) < 0 := by omega
    simp only [if_neg hnonneg]
    have htop : m.heapSize - m (m.heapSize - 1) - 2 = headerSlots + extent k := by omega
    have hsize : n + m (m.heapSize - 1) = c.size + n := by omega
    simp only [htop, hsize]
    have hout : ∀ i, i < headerSlots + extent k → ((m.set (headerSlots + extent k) (c.size + n)).set
        (m.heapSize + n - 1) (c.size + n)) i = m i := by
      intro i hi
      simp (disch := omega) only [Slots.set_of_ne]
    refine ⟨k ++ [⟨c.size + n, true⟩], hgrown (fun i hi => hout i (by omega)) ?_ ?_ (by simp) ?_
      ?_ ?_ ?_, ?_⟩
    · refine tiled_append.2 ⟨hk.congr fun i _ hi => hout i hi, by dsimp only; omega, ?_, ?_, trivial⟩
      · simp (disch := omega) only [Slots.set_of_ne, Slots.set_self, Block.tag_free]
      · rw [show headerSlots + extent k + (⟨c.size + n, true⟩ : Block).size + 1 = m.heapSize + n - 1 by
          dsimp only; omega]
        simp only [Slots.set_self, Block.tag_free]
    · simp only [extent_append, extent_cons, extent_nil]
      ring
    · obtain ⟨hcok, -, hends⟩ := coalesced_middle.1 hco
      exact coalesced_middle.2 ⟨hcok, List.isChain_nil, fun _ => ⟨(hends hc).1, by simp⟩⟩
    · intro hzero
      have := h.firstFreeBlock_eq_zero_iff.1 hzero c (by simp)
      rw [hc] at this
      cases this
    · intro _
      rw [h.first]
      by_cases hexists : ∃ b ∈ k, b.free = true
      · rw [firstFree_append_of_free hexists, firstFree_append_of_free hexists]
      · have hocc : ∀ b ∈ k, b.free = false := fun b hb => by
          by_contra hfree
          exact hexists ⟨b, hb, by simpa using hfree⟩
        rw [firstFree_append_of_occupied hocc, firstFree_append_of_occupied hocc,
          firstFree_cons_free rfl, firstFree_cons_free hc]
    · intro l₁ l₂ hl hne
      rcases List.eq_nil_or_concat l₂ with rfl | ⟨k₂, d, rfl⟩
      · exact absurd rfl hne
      · rw [List.concat_eq_append, ← List.append_assoc] at hl
        obtain ⟨rfl, -⟩ := List.append_inj' hl rfl
        exact ⟨k₂ ++ [⟨c.size + n, true⟩], by simp, by simp⟩
    · rw [occupied_append, occupied_append, occupied_cons_free rfl, occupied_cons_free hc]
      rfl

end Inv

/-! ## Runs -/

/-- A heap and the addresses that were handed out and not freed. -/
structure State where
  heap : Slots
  live : Finset ℤ

/-- The calls, and the stores of the owners of blocks. `none` is `NULL`. -/
inductive Op
  | allocate (byteAmount : UInt64)
  | free (address : Option ℤ)
  | reallocate (address : Option ℤ) (byteAmount : UInt64)
  | grow (growAmount : UInt64)
  | store (slot value : ℤ)

/-- The slots of the block at an address, as `omrheap_query_size` reads them. -/
def blockSlots (m : Slots) (address : ℤ) : ℤ := -m (address - 1)

/-- What a caller may do: pass addresses that are handed out, grow the heap into
memory that there is, and write to its own blocks. -/
def Op.Permitted (s : State) : Op → Prop
  | allocate _ => True
  | free none => True
  | free (some address) => address ∈ s.live
  | reallocate none _ => True
  | reallocate (some address) _ => address ∈ s.live
  | grow growAmount => s.heap.heapSize + growSlots growAmount < 2 ^ 61
  | store slot _ => ∃ a ∈ s.live, a ≤ slot ∧ slot < a + blockSlots s.heap a

/-- The state after `omrheap_allocate`. -/
def afterAllocate (s : State) (byteAmount : UInt64) : State :=
  match allocate s.heap byteAmount with
  | (none, m) => ⟨m, s.live⟩
  | (some address, m) => ⟨m, insert address s.live⟩

def step (s : State) : Op → State
  | .allocate byteAmount => afterAllocate s byteAmount
  | .free none => s
  | .free (some address) => ⟨free s.heap address, s.live.erase address⟩
  | .reallocate none byteAmount => afterAllocate s byteAmount
  | .reallocate (some address) byteAmount =>
    match reallocate s.heap address byteAmount with
    | (none, m) => ⟨m, s.live⟩
    | (some address', m) => ⟨m, insert address' (s.live.erase address)⟩
  | .grow growAmount => ⟨(grow s.heap growAmount).2, s.live⟩
  | .store slot value => ⟨s.heap.set slot value, s.live⟩

/-- The states that runs reach, if every step meets the condition `ok`. -/
inductive Reaches (ok : State → Op → Prop) : State → Prop
  | create {m m' : Slots} {heapBase heapSize : UInt64}
      (h : create m heapBase heapSize = some m') : Reaches ok ⟨m', ∅⟩
  | step {s : State} {op : Op} (hs : Reaches ok s) (hop : op.Permitted s) (hok : ok s op) :
      Reaches ok (step s op)

/-- The heap does not grow when it is full and its cursor is slot 0. -/
def GrowsSafely (s : State) : Op → Prop
  | .grow growAmount =>
    growSlots growAmount ≤ 4 ∨ ¬ (s.heap.firstFreeBlock = 0 ∧ s.heap.lastAllocSlot = 0)
  | _ => True

/-- The heap does not grow. -/
def NoGrowth (_ : State) : Op → Prop
  | .grow _ => False
  | _ => True

/-- The blocks of a state, with the occupied ones handed out. -/
def Shows (s : State) (l : List Block) : Prop :=
  Inv s.heap l ∧ ∀ a, a ∈ s.live ↔ a ∈ occupied headerSlots l

theorem shows_afterAllocate {s : State} {l : List Block} (h : Shows s l) (byteAmount : UInt64) :
    ∃ l', Shows (afterAllocate s byteAmount) l' := by
  obtain ⟨hinv, hlive⟩ := h
  rw [afterAllocate]
  rcases hinv.allocate byteAmount with ⟨hfail, -⟩ | ⟨a₁, e, a₂, m', hrun, h', -, -, -, -, hocc⟩
  · rw [hfail]
    exact ⟨l, hinv, hlive⟩
  · rw [hrun]
    refine ⟨_, h', fun a => ?_⟩
    rw [Finset.mem_insert, hocc, hlive]

/-- One step. -/
theorem shows_step {s : State} {l : List Block} {op : Op} (h : Shows s l) (hop : op.Permitted s)
    (hok : GrowsSafely s op) : ∃ l', Shows (step s op) l' := by
  obtain ⟨hinv, hlive⟩ := h
  cases op with
  | allocate byteAmount => exact shows_afterAllocate ⟨hinv, hlive⟩ byteAmount
  | free address =>
    cases address with
    | none => exact ⟨l, hinv, hlive⟩
    | some address =>
      obtain ⟨l', h', hocc⟩ := hinv.free_occupied ((hlive address).1 hop)
      refine ⟨l', h', fun a => ?_⟩
      rw [hocc, ← hlive]
      show a ∈ s.live.erase address ↔ _
      rw [Finset.mem_erase]
      exact And.comm
  | reallocate address byteAmount =>
    cases address with
    | none => exact shows_afterAllocate ⟨hinv, hlive⟩ byteAmount
    | some address =>
      obtain ⟨l', h', hcases⟩ := hinv.reallocate ((hlive address).1 hop) byteAmount
      refine ⟨l', ?_⟩
      rw [step]
      generalize reallocate s.heap address byteAmount = r at *
      obtain ⟨result, m'⟩ := r
      rcases hcases with ⟨hresult | hresult, hocc⟩ | ⟨new, hresult, hnew, hocc⟩
      · obtain rfl : result = none := hresult
        exact ⟨h', fun a => by rw [hocc]; exact hlive a⟩
      · obtain rfl : result = some address := hresult
        refine ⟨h', fun a => ?_⟩
        rw [hocc, ← hlive]
        show a ∈ insert address (s.live.erase address) ↔ _
        rw [Finset.insert_erase hop]
      · obtain rfl : result = some new := hresult
        refine ⟨h', fun a => ?_⟩
        rw [hocc, ← hlive]
        show a ∈ insert new (s.live.erase address) ↔ _
        have hne : new ≠ address := by
          rintro rfl
          exact hnew ((hlive new).1 hop)
        rw [Finset.mem_insert, Finset.mem_erase]
        constructor
        · rintro (rfl | ⟨hne', ha⟩)
          · exact ⟨Or.inl rfl, hne⟩
          · exact ⟨Or.inr ha, hne'⟩
        · rintro ⟨rfl | ha, hne'⟩
          · exact Or.inl rfl
          · exact Or.inr ⟨hne', ha⟩
  | grow growAmount =>
    by_cases hsmall : growSlots growAmount ≤ 4
    · refine ⟨l, ?_⟩
      rw [step, grow, if_pos hsmall]
      exact ⟨hinv, hlive⟩
    · have hcursor : CursorAt s.heap l := by
        rcases hinv.cursor with hzero | hcursor
        · rcases hok with hle | hnot
          · exact absurd hle hsmall
          · exact absurd hzero hnot
        · exact hcursor
      obtain ⟨l', h', hocc⟩ := hinv.grow hop hcursor
      exact ⟨l', h', fun a => by rw [hocc]; exact hlive a⟩
  | store slot value =>
    obtain ⟨a, ha, hle, hlt⟩ := hop
    obtain ⟨l₁, b, l₂, rfl, hb, rfl⟩ := mem_occupied.1 ((hlive a).1 ha)
    rw [blockSlots, add_sub_cancel_right, hinv.block_tag hb] at hlt
    refine ⟨l₁ ++ b :: l₂, hinv.write_inside (fun i hi => ?_) rfl le_rfl, hlive⟩
    exact Slots.set_of_ne (by omega)

/-- Whole runs. -/
theorem Reaches.shows {ok : State → Op → Prop} (hok : ∀ s op, ok s op → GrowsSafely s op) {s : State}
    (h : Reaches ok s) : ∃ l, Shows s l := by
  induction h with
  | create h =>
    obtain ⟨size, hinv⟩ := create_inv h
    exact ⟨_, hinv, by simp [occupied]⟩
  | step _ hop hstep ih =>
    obtain ⟨l, hl⟩ := ih
    exact shows_step hl hop (hok _ _ hstep)

/-! ## The heap is well formed -/

/-- The heap is tiled by the blocks `l` with their tags, no two neighbours are
free, both cursors stand at blocks, and the blocks handed out are apart, inside
the heap and behind its header. -/
structure WellFormed (s : State) (l : List Block) : Prop where
  tiled : Tiled s.heap headerSlots l
  size : s.heap.heapSize = headerSlots + extent l
  coalesced : Coalesced l
  first : s.heap.firstFreeBlock = firstFree headerSlots l
  cursor : s.heap.firstFreeBlock ≠ 0 →
    ∃ l₁ l₂, l = l₁ ++ l₂ ∧ l₂ ≠ [] ∧ s.heap.lastAllocSlot = headerSlots + extent l₁
  live_iff : ∀ a, a ∈ s.live ↔ a ∈ occupied headerSlots l
  inside : ∀ a ∈ s.live, headerSlots < a ∧ 0 < blockSlots s.heap a ∧
    a + blockSlots s.heap a < s.heap.heapSize
  apart : ∀ a ∈ s.live, ∀ b ∈ s.live, a ≠ b →
    a + blockSlots s.heap a ≤ b ∨ b + blockSlots s.heap b ≤ a

theorem Shows.wellFormed {s : State} {l : List Block} (h : Shows s l) : WellFormed s l := by
  obtain ⟨hinv, hlive⟩ := h
  refine ⟨hinv.tiled, hinv.size, hinv.coalesced, hinv.first, ?_, hlive, ?_, ?_⟩
  · intro hfree
    rcases hinv.cursor with ⟨hzero, -⟩ | ⟨l₁, l₂, hl, hne, hslot, -⟩
    · exact absurd hzero hfree
    · exact ⟨l₁, l₂, hl, hne, hslot⟩
  · intro a ha
    obtain ⟨l₁, b, l₂, rfl, hb, rfl⟩ := mem_occupied.1 ((hlive a).1 ha)
    obtain ⟨hp, hpos, -, hsize, hnonneg⟩ := hinv.middle
    have hl₁ := (tiled_append.1 hinv.tiled).1.extent_nonneg
    rw [blockSlots, add_sub_cancel_right, hinv.block_tag hb]
    omega
  · intro a ha a' ha' hne
    obtain ⟨l₁, b, l₂, rfl, hb, rfl⟩ := mem_occupied.1 ((hlive a).1 ha)
    obtain ⟨k₁, c, k₂, hk, hc, rfl⟩ := mem_occupied.1 ((hlive a').1 ha')
    have hinv' := hinv
    rw [hk] at hinv'
    rw [blockSlots, blockSlots, add_sub_cancel_right, add_sub_cancel_right, hinv.block_tag hb,
      hinv'.block_tag hc]
    rcases cut_cases hk with ⟨z, rfl, hz⟩ | ⟨w, rfl, -⟩
    · cases z with
      | nil => exact absurd (by simp) hne
      | cons d z =>
        obtain ⟨rfl, rfl⟩ := List.cons.inj hz
        have := (tiled_append.1 (tiled_append.1 hinv.tiled).1).2.2.2.2.extent_nonneg
        rw [extent_append, extent_cons]
        exact Or.inr (by omega)
    · have := (tiled_append.1 (tiled_append.1 hinv'.tiled).1).2.2.2.2.extent_nonneg
      rw [extent_append, extent_cons]
      exact Or.inl (by omega)

/-- The cursor of a heap that grows unsafely is not at a block afterwards. -/
theorem not_wellFormed_grow {s : State} {growAmount : UInt64} {l : List Block} (h : Shows s l)
    (hok : ¬ GrowsSafely s (.grow growAmount)) (l' : List Block) :
    ¬ WellFormed (step s (.grow growAmount)) l' := by
  intro hwell
  rw [GrowsSafely] at hok
  push Not at hok
  obtain ⟨hlarge, hfull, hzero⟩ := hok
  obtain ⟨k, c, rfl, hlast⟩ := h.1.exists_last
  obtain ⟨hp, hcpos, -, hheapSize, -⟩ := h.1.middle
  rw [extent_nil] at hheapSize
  have hc : c.tag = -c.size := by
    rw [Block.tag, h.1.firstFreeBlock_eq_zero_iff.1 hfull c (by simp)]
    rfl
  have hneg : s.heap (s.heap.heapSize - 1) < 0 := by omega
  have hstep : (step s (.grow growAmount)).heap =
      ((((s.heap.set s.heap.heapSize (growSlots growAmount - 2)).set
        (s.heap.heapSize + growSlots growAmount - 1) (growSlots growAmount - 2)).set 1
          s.heap.heapSize).set 0 (s.heap.heapSize + growSlots growAmount)) := by
    simp only [step, grow, if_neg (not_le.2 hlarge), if_pos hneg, if_pos hfull]
  have hfirst : (step s (.grow growAmount)).heap.firstFreeBlock = s.heap.heapSize := by
    rw [hstep]
    rfl
  have hcursor : (step s (.grow growAmount)).heap.lastAllocSlot = 0 := by
    rw [← hzero, hstep]
    show Slots.set _ _ _ 2 = s.heap 2
    simp (disch := omega) only [Slots.set_of_ne]
  obtain ⟨l₁, l₂, rfl, -, hslot⟩ := hwell.cursor (by omega)
  have := (tiled_append.1 hwell.tiled).1.extent_nonneg
  have hheader : headerSlots = 4 := rfl
  omega

/-- In every run that does not grow a full heap whose cursor is slot 0, the heap is
well formed in every state; and such a growth breaks it at once. -/
theorem reaches_wellFormed (s : State) (h : Reaches GrowsSafely s) :
    (∃ l, WellFormed s l) ∧
      ∀ op, op.Permitted s → ((∃ l, WellFormed (step s op) l) ↔ GrowsSafely s op) := by
  obtain ⟨l, hl⟩ := h.shows fun _ _ hok => hok
  refine ⟨⟨l, hl.wellFormed⟩, fun op hop => ⟨fun hwell => ?_, fun hok => ?_⟩⟩
  · by_contra hok
    obtain ⟨l', hwell⟩ := hwell
    cases op with
    | grow growAmount => exact not_wellFormed_grow hl hok l' hwell
    | allocate _ => exact hok trivial
    | free _ => exact hok trivial
    | reallocate _ _ => exact hok trivial
    | store _ _ => exact hok trivial
  · obtain ⟨l', hl'⟩ := shows_step hl hop hok
    exact ⟨l', hl'.wellFormed⟩

/-- A heap of fourteen slots: a block of eight slots behind the header. -/
def smallHeap : Slots := (create (fun _ => 0) 16 112).get (by decide)

theorem create_smallHeap : create (fun _ => 0) 16 112 = some smallHeap :=
  (Option.some_get _).symm

/-- The heap after the allocation of one slot. -/
theorem reaches_wellFormed_allocated :
    ∃ l, WellFormed (step ⟨smallHeap, ∅⟩ (.allocate 8)) l := by
  have hreach : Reaches GrowsSafely (step ⟨smallHeap, ∅⟩ (.allocate 8)) :=
    .step (.create create_smallHeap) trivial trivial
  exact (reaches_wellFormed _ hreach).1

/-- A block that is reallocated to take all of the heap leaves the cursor at slot 0.
When the heap has grown, the next allocation hands out the header. -/
theorem grow_full_not_wellFormed : ∃ s : State, Reaches (fun _ _ => True) s ∧
    (∀ l, ¬ WellFormed s l) ∧ (allocate s.heap 8).1 = some 1 := by
  have hone : Reaches GrowsSafely (step ⟨smallHeap, ∅⟩ (.allocate 8)) :=
    .step (.create create_smallHeap) trivial trivial
  have hlive : (5 : ℤ) ∈ (step ⟨smallHeap, ∅⟩ (.allocate 8)).live := by decide +kernel
  have htwo : Reaches GrowsSafely
      (step (step ⟨smallHeap, ∅⟩ (.allocate 8)) (.reallocate (some 5) 64)) :=
    .step hone hlive trivial
  obtain ⟨l, hl⟩ := htwo.shows fun _ _ hok => hok
  refine ⟨step (step (step ⟨smallHeap, ∅⟩ (.allocate 8)) (.reallocate (some 5) 64)) (.grow 64),
    ?_, not_wellFormed_grow hl ?_, by decide +kernel⟩
  · refine .step (.step (.step (.create create_smallHeap) trivial trivial) hlive trivial) ?_ trivial
    show Slots.heapSize _ + growSlots 64 < 2 ^ 61
    decide +kernel
  · rintro (hsmall | hcursor)
    · exact absurd hsmall (by decide)
    · exact hcursor (by decide +kernel)

/-! ## The search misses nothing -/

/-- The free blocks that a walk over the whole heap finds, with their sizes. -/
def scanFrom (m : Slots) (lastSlot cursor : ℤ) : List (ℤ × ℤ) :=
  if cursor < lastSlot then
    if m cursor > 0 then (cursor, m cursor) :: scanFrom m lastSlot (cursor + (m cursor + 2))
    else scanFrom m lastSlot (cursor + (-m cursor + 2))
  else []
termination_by (lastSlot - cursor).toNat

def scan (m : Slots) : List (ℤ × ℤ) := scanFrom m (m.heapSize - 1) headerSlots

theorem mem_scanFrom {m : Slots} {p lastSlot : ℤ} {l : List Block} (h : Tiled m p l)
    (hlast : lastSlot = p + extent l - 1) {q n : ℤ} : (q, n) ∈ scanFrom m lastSlot p ↔
      ∃ l₁ b l₂, l = l₁ ++ b :: l₂ ∧ b.free = true ∧ q = p + extent l₁ ∧ n = b.size := by
  induction l generalizing p with
  | nil =>
    rw [extent_nil] at hlast
    rw [scanFrom, if_neg (by omega)]
    simp
  | cons c l ih =>
    obtain ⟨hpos, htop, -, htail⟩ := h
    have hnonneg := htail.extent_nonneg
    rw [extent_cons] at hlast
    have hrest := @ih (p + c.size + 2) htail (by omega)
    -- the block is the first one or one of the others
    have hcons : (∃ l₁ b l₂, c :: l = l₁ ++ b :: l₂ ∧ b.free = true ∧ q = p + extent l₁ ∧ n = b.size) ↔
        (c.free = true ∧ q = p ∧ n = c.size) ∨ (q, n) ∈ scanFrom m lastSlot (p + c.size + 2) := by
      rw [hrest]
      constructor
      · rintro ⟨l₁, b, l₂, hl, hb, rfl, rfl⟩
        cases l₁ with
        | nil =>
          obtain ⟨rfl, rfl⟩ := List.cons.inj hl
          exact Or.inl ⟨hb, by simp, rfl⟩
        | cons d l₁ =>
          obtain ⟨rfl, rfl⟩ := List.cons.inj hl
          refine Or.inr ⟨l₁, b, l₂, rfl, hb, ?_, rfl⟩
          rw [extent_cons]
          ring
      · rintro (⟨hc, rfl, rfl⟩ | ⟨l₁, b, l₂, rfl, hb, rfl, rfl⟩)
        · exact ⟨[], c, l, rfl, hc, by simp, rfl⟩
        · refine ⟨c :: l₁, b, l₂, rfl, hb, ?_, rfl⟩
          rw [extent_cons]
          ring
    rw [hcons, scanFrom, if_pos (by omega), htop]
    cases hc : c.free with
    | true =>
      have htag : c.tag = c.size := if_pos hc
      rw [htag, if_pos hpos, List.mem_cons, Prod.mk.injEq, ← add_assoc]
      simp
    | false =>
      have htag : c.tag = -c.size := if_neg (by simp [hc])
      rw [htag, if_neg (by omega), neg_neg, ← add_assoc]
      simp

theorem Inv.mem_scan {m : Slots} {l : List Block} (h : Inv m l) {q n : ℤ} :
    (q, n) ∈ scan m ↔
      ∃ l₁ b l₂, l = l₁ ++ b :: l₂ ∧ b.free = true ∧ q = headerSlots + extent l₁ ∧ n = b.size :=
  mem_scanFrom h.tiled (by rw [h.size])

/-- In every state that a run without growth reaches, allocation fails exactly when
no free block of the heap is large enough, and no free block before the cursor is
larger than the size that is kept with it. -/
theorem allocate_misses_nothing (s : State) (h : Reaches NoGrowth s) :
    (∀ byteAmount, (allocate s.heap byteAmount).1 = none ↔
      ∀ q n, (q, n) ∈ scan s.heap → n < slotsFor byteAmount) ∧
      ∀ q n, (q, n) ∈ scan s.heap → q < s.heap.lastAllocSlot →
        n ≤ s.heap.largestAllocSizeVisited := by
  obtain ⟨l, hinv, -⟩ := h.shows fun s op hop => by
    cases op with
    | grow _ => exact absurd hop id
    | allocate _ => trivial
    | free _ => trivial
    | reallocate _ _ => trivial
    | store _ _ => trivial
  constructor
  · intro byteAmount
    rcases hinv.allocate byteAmount with ⟨hfail, hall⟩ | ⟨a₁, e, a₂, m', hrun, -, -, -, hfit, -⟩
    · refine iff_of_true (by rw [hfail]) fun q n hscan => ?_
      obtain ⟨l₁, b, l₂, rfl, hb, -, rfl⟩ := hinv.mem_scan.1 hscan
      exact hall b (by simp) hb
    · refine iff_of_false (by rw [hrun]; simp) fun hall => ?_
      obtain ⟨b, hb, hfree, hsize⟩ := hfit
      obtain ⟨l₁, l₂, rfl⟩ := List.append_of_mem hb
      have := hall _ _ (hinv.mem_scan.2 ⟨l₁, b, l₂, rfl, hfree, rfl, rfl⟩)
      omega
  · intro q n hscan hlt
    obtain ⟨l₁, b, l₂, rfl, hb, rfl, rfl⟩ := hinv.mem_scan.1 hscan
    have hpos := hinv.tiled.size_pos (b := b) (by simp)
    rcases hinv.cursor with ⟨-, hzero⟩ | ⟨k₁, k₂, hk, -, hslot, hbelow⟩
    · have := hinv.middle.1
      omega
    · rcases cut_cases hk with ⟨z, rfl, -⟩ | ⟨w, rfl, -⟩
      · have := (tiled_append.1 (tiled_append.1 hinv.tiled).1).2.extent_nonneg
        rw [extent_append] at hlt
        omega
      · exact hbelow b (by simp) hb

/-- Of eight slots five are left, so that six slots are refused. -/
theorem allocate_misses_nothing_allocated :
    (allocate (step ⟨smallHeap, ∅⟩ (.allocate 8)).heap 48).1 = none := by
  have hreach : Reaches NoGrowth (step ⟨smallHeap, ∅⟩ (.allocate 8)) :=
    .step (.create create_smallHeap) trivial trivial
  have hscan : scan (step ⟨smallHeap, ∅⟩ (.allocate 8)).heap = [(7, 5)] := by decide +kernel
  refine ((allocate_misses_nothing _ hreach).1 48).2 fun q n hmem => ?_
  rw [hscan, List.mem_singleton, Prod.mk.injEq] at hmem
  rw [hmem.2]
  decide

end OMR.Port.OmrHeap
