import OMR.Compiler.CodeCacheSearch

/-!
# A code cache over whole runs

Method allocations with headers, the release of blocks that are in use and the
shrinking of such blocks, in any order. The sizes asked for do not wrap around
when a header and the alignment are added; the front end passes 32 bits.
-/

namespace OMR.Compiler.CodeCache

open OMR.Lib

/-- The blocks among the extents that an allocation returns. -/
def blocks (l : List Extent) : List Extent := l.filter fun b => 0 < b.size

section Allocate

variable {c : CodeCache} {live : List Extent} {alignment n : ℕ} {b warm : Extent}

@[simp] theorem blocks_nil : blocks [] = [] := rfl

theorem blocks_cons_of_pos {l : List Extent} (h : 0 < b.size) : blocks (b :: l) = b :: blocks l :=
  List.filter_cons_of_pos (by simpa using h)

theorem blocks_cons_of_zero {l : List Extent} (h : b.size = 0) : blocks (b :: l) = blocks l :=
  List.filter_cons_of_neg (by simp [h])

theorem le_roundDown (ha : 0 < alignment) (x : ℕ) :
    x ≤ roundDown alignment (x + (alignment - 1)) :=
  le_alignUp ha x

/-- A block has room for its header. -/
theorem adjustSize_spec (ha : 0 < alignment) (h : n + methodHeaderBytes + alignment ≤ 2 ^ 64) :
    adjustSize alignment true n = 0 ∨ methodHeaderBytes ≤ adjustSize alignment true n := by
  by_cases hn : n = 0
  · exact Or.inl (if_pos hn)
  · rw [adjustSize, if_neg hn, if_pos rfl, Nat.mod_eq_of_lt (by omega)]
    have := le_roundDown ha (n + methodHeaderBytes)
    omega

theorem adjustSize_le : adjustSize alignment true n ≤ n + methodHeaderBytes + (alignment - 1) := by
  by_cases hn : n = 0
  · rw [adjustSize, if_pos hn]
    exact Nat.zero_le _
  · rw [adjustSize, if_neg hn, if_pos rfl]
    exact (roundDown_le _).trans (Nat.mod_le _ _)

/-- The sizes of a request, a header each and the alignment fit into 64 bits. -/
def NoWrap (alignment warmCodeSize coldCodeSize : ℕ) : Prop :=
  warmCodeSize + coldCodeSize + 2 * (methodHeaderBytes + alignment) ≤ 2 ^ 64

theorem performSizeAdjustments_spec {warmCodeSize coldCodeSize : ℕ} (ha : 0 < alignment)
    (h : NoWrap alignment warmCodeSize coldCodeSize) (needsToBeContiguous : Bool) {sizes : ℕ × ℕ}
    (hsizes : performSizeAdjustments alignment warmCodeSize coldCodeSize needsToBeContiguous true =
      sizes) :
    (sizes.1 = 0 ∨ methodHeaderBytes ≤ sizes.1) ∧ (sizes.2 = 0 ∨ methodHeaderBytes ≤ sizes.2) ∧
      sizes.1 + sizes.2 < 2 ^ 64 := by
  rw [NoWrap] at h
  rw [performSizeAdjustments] at hsizes
  split_ifs at hsizes with hcontiguous
  · obtain rfl := hsizes
    rw [Nat.mod_eq_of_lt (by omega)]
    have hle := @adjustSize_le alignment (warmCodeSize + coldCodeSize)
    exact ⟨adjustSize_spec ha (by omega), Or.inl rfl, by dsimp only; omega⟩
  · obtain rfl := hsizes
    have hwarm := @adjustSize_le alignment warmCodeSize
    have hcold := @adjustSize_le alignment coldCodeSize
    exact ⟨adjustSize_spec ha (by omega), adjustSize_spec ha (by omega), by dsimp only; omega⟩

/-- The warm part of an allocation fails without a change or hands out a block. -/
theorem allocateWarm_spec (h : Inv c live) (ha : 0 < alignment)
    (hn : n = 0 ∨ methodHeaderBytes ≤ n) {warmIsFreeBlock : Bool}
    (hfree : warmIsFreeBlock = true → n ≠ 0 ∧ c.sizeOfLargestFreeWarmBlock ≥ n) :
    c.allocateWarm alignment n warmIsFreeBlock = (none, c) ∨
      ∃ warm d, c.allocateWarm alignment n warmIsFreeBlock = (some warm, d) ∧
        Inv d (blocks [warm] ++ live) ∧ n ≤ warm.size ∧ d.coldCodeAlloc = c.coldCodeAlloc ∧
        d.sizeOfLargestFreeColdBlock = c.sizeOfLargestFreeColdBlock ∧
        (warmIsFreeBlock = false → warm.top = d.warmCodeAlloc) := by
  rw [allocateWarm]
  by_cases hf : warmIsFreeBlock = true
  · obtain ⟨hn0, hle⟩ := hfree hf
    have hsize := hn.resolve_left hn0
    obtain ⟨taken, d, hfind, hge, hinv, -, hcold, hother⟩ :=
      findFreeBlock_spec false h hsize hle
    rw [if_pos hf]
    refine Or.inr ⟨taken, d, hfind, ?_, hge, hcold, hother, by simp [hf]⟩
    rwa [blocks_cons_of_pos (by omega)]
  · rw [if_neg hf]
    by_cases hn0 : n = 0
    · rw [if_neg (by simpa using hn0)]
      refine Or.inr ⟨_, c, rfl, ?_, hn0.le, rfl, rfl, fun _ => rfl⟩
      rwa [blocks_cons_of_zero rfl]
    · have hsize := hn.resolve_left hn0
      have hle := le_alignUp ha c.warmCodeAlloc
      rw [if_pos hn0]
      dsimp only
      split_ifs with hfull
      · exact Or.inl rfl
      · refine Or.inr ⟨_, _, rfl, ?_, le_rfl, rfl, rfl, fun _ => rfl⟩
        rw [blocks_cons_of_pos (by simp only; omega)]
        exact h.carve (not_lt.1 hfull) (by omega) le_rfl hle (not_lt.1 hfull) (Or.inl le_rfl) hsize

/-- Warm memory from the end of the warm part is given back. -/
theorem Inv.rollback (h : Inv c (blocks [warm] ++ live)) (htop : warm.top = c.warmCodeAlloc) :
    Inv { c with warmCodeAlloc := warm.base } live := by
  by_cases hsize : warm.size = 0
  · rw [blocks_cons_of_zero hsize] at h
    have hbase : warm.base = c.warmCodeAlloc := by
      rw [← htop, Extent.top, hsize, Nat.add_zero]
    rw [hbase]
    exact h
  · rw [blocks_cons_of_pos (Nat.pos_of_ne_zero hsize)] at h
    exact h.lowerWarm htop le_rfl (Nat.le_add_right _ _)

/-- The cold part of an allocation fails and gives the warm part back, if it was not
a free block, or hands out a block. -/
theorem allocateCold_spec (h : Inv c (blocks [warm] ++ live))
    (hn : n = 0 ∨ methodHeaderBytes ≤ n) {warmIsFreeBlock coldIsFreeBlock : Bool}
    (htop : warmIsFreeBlock = false → warm.top = c.warmCodeAlloc)
    (hfree : coldIsFreeBlock = true → n ≠ 0 ∧ c.sizeOfLargestFreeColdBlock ≥ n)
    (hroom : coldIsFreeBlock = false → n ≤ c.coldCodeAlloc) :
    (∃ d, c.allocateCold alignment warm warmIsFreeBlock n coldIsFreeBlock = (none, d) ∧
      Inv d live) ∨
    ∃ cold d, c.allocateCold alignment warm warmIsFreeBlock n coldIsFreeBlock = (some cold, d) ∧
      Inv d (blocks [warm, cold] ++ live) ∧ n ≤ cold.size := by
  have hinsert : ∀ {d : CodeCache} {cold : Extent}, 0 < cold.size →
      Inv d (cold :: (blocks [warm] ++ live)) → Inv d (blocks [warm, cold] ++ live) := by
    intro d cold hpos hinv
    refine hinv.perm ?_
    by_cases hw : warm.size = 0
    · rw [blocks_cons_of_zero hw, blocks_cons_of_zero hw, blocks_cons_of_pos hpos]
      exact List.Perm.refl _
    · rw [blocks_cons_of_pos (Nat.pos_of_ne_zero hw), blocks_cons_of_pos (Nat.pos_of_ne_zero hw),
        blocks_cons_of_pos hpos]
      exact List.Perm.swap _ _ _
  rw [allocateCold]
  by_cases hf : coldIsFreeBlock = true
  · obtain ⟨hn0, hle⟩ := hfree hf
    have hsize := hn.resolve_left hn0
    obtain ⟨taken, d, hfind, hge, hinv, -, -, -⟩ := findFreeBlock_spec true h hsize hle
    rw [methodHeaderBytes] at hsize
    rw [if_pos hf]
    exact Or.inr ⟨taken, d, hfind, hinsert (by omega) hinv, hge⟩
  · rw [if_neg hf]
    by_cases hn0 : n = 0
    · rw [if_neg (by simpa using hn0)]
      refine Or.inr ⟨_, c, rfl, ?_, hn0.le⟩
      by_cases hw : warm.size = 0
      · rw [blocks_cons_of_zero hw] at h ⊢
        rwa [blocks_cons_of_zero rfl]
      · rw [blocks_cons_of_pos (Nat.pos_of_ne_zero hw)] at h ⊢
        rwa [blocks_cons_of_zero rfl]
    · have hsize := hn.resolve_left hn0
      have hround := @roundDown_le alignment (c.coldCodeAlloc - n)
      rw [if_pos hn0]
      dsimp only
      split_ifs with hfull hwf
      · exact Or.inl ⟨c, rfl, by
          by_cases hw : warm.size = 0
          · rwa [blocks_cons_of_zero hw] at h
          · rw [blocks_cons_of_pos (Nat.pos_of_ne_zero hw)] at h
            exact h.drop⟩
      · exact Or.inl ⟨_, rfl, h.rollback (htop (Bool.eq_false_iff.2 hwf))⟩
      · refine Or.inr ⟨_, _, rfl, hinsert (by simp only; omega) ?_, le_rfl⟩
        have hborder := h.border
        refine h.carve (not_lt.1 hfull) le_rfl (by omega) (not_lt.1 hfull) ?_ (Or.inr le_rfl) hsize
        have hle := hroom (Bool.eq_false_iff.2 hf)
        simp only [Extent.top]
        omega

end Allocate

/-- A code cache and the blocks that are in use. -/
structure State where
  cache : CodeCache
  live : List Extent

/-- The calls. A block to be freed or resized is named by its extent. -/
inductive Op
  | allocate (warmCodeSize coldCodeSize : ℕ) (needsToBeContiguous : Bool)
  | free (block : Extent)
  | resize (block : Extent) (newSize : ℕ)

/-- Blocks in use, and sizes that do not wrap around. -/
def Op.Permitted (alignment : ℕ) (s : State) : Op → Prop
  | allocate warmCodeSize coldCodeSize _ => NoWrap alignment warmCodeSize coldCodeSize
  | free block => block ∈ s.live
  | resize block newSize => block ∈ s.live ∧ NoWrap alignment newSize 0

/-- The blocks in use after an allocation. -/
def afterAllocate (live : List Extent) : Option (Extent × Extent) × CodeCache → State
  | (none, c) => ⟨c, live⟩
  | (some (warm, cold), c) => ⟨c, blocks [warm, cold] ++ live⟩

/-- One call. -/
def step (alignment : ℕ) (s : State) : Op → State
  | .allocate warmCodeSize coldCodeSize needsToBeContiguous =>
    afterAllocate s.live
      (s.cache.allocateCodeMemory alignment warmCodeSize coldCodeSize needsToBeContiguous true)
  | .free block => ⟨(s.cache.addFreeBlock2 alignment block.base block.top).2, s.live.erase block⟩
  | .resize block newSize =>
    let r := s.cache.resizeCodeMemory alignment block newSize
    ⟨r.2, r.1 :: s.live.erase block⟩

/-- The states that runs of calls reach from an initialized cache, whose segment has
room for its header and the preloaded code. -/
inductive Reaches (alignment : ℕ) : State → Prop
  | initialized {segmentBase ccPreLoadedCodeBase : ℕ}
      (hroom : alignUp alignment (segmentBase + 8) ≤ ccPreLoadedCodeBase) :
      Reaches alignment ⟨initializeCache alignment segmentBase ccPreLoadedCodeBase, []⟩
  | step {s : State} {op : Op} (h : Reaches alignment s) (hop : op.Permitted alignment s) :
      Reaches alignment (step alignment s op)

section Steps

variable {c : CodeCache} {live : List Extent} {alignment : ℕ} {block : Extent}

/-- Every outcome of an allocation keeps the invariant. -/
theorem allocateCodeMemory_inv (h : Inv c live) (ha : 0 < alignment)
    {warmCodeSize coldCodeSize : ℕ} (hwrap : NoWrap alignment warmCodeSize coldCodeSize)
    (needsToBeContiguous : Bool) {s : State}
    (hs : afterAllocate live (c.allocateCodeMemory alignment warmCodeSize coldCodeSize
      needsToBeContiguous true) = s) : Inv s.cache s.live := by
  rw [allocateCodeMemory] at hs
  generalize hsizes : performSizeAdjustments alignment warmCodeSize coldCodeSize needsToBeContiguous
    true = sizes at hs
  obtain ⟨hwarmSize, hcoldSize, hsum⟩ :=
    performSizeAdjustments_spec ha hwrap needsToBeContiguous hsizes
  generalize hw : decide (needsToBeContiguous = false ∧ sizes.1 ≠ 0 ∧
    c.sizeOfLargestFreeWarmBlock ≥ sizes.1) = warmIsFreeBlock at hs
  generalize hk : decide (needsToBeContiguous = false ∧ sizes.2 ≠ 0 ∧
    c.sizeOfLargestFreeColdBlock ≥ sizes.2) = coldIsFreeBlock at hs
  have hwarmFree : warmIsFreeBlock = true → sizes.1 ≠ 0 ∧ c.sizeOfLargestFreeWarmBlock ≥ sizes.1 := by
    rintro rfl
    exact (of_decide_eq_true hw).2
  have hcoldFree : coldIsFreeBlock = true → sizes.2 ≠ 0 ∧ c.sizeOfLargestFreeColdBlock ≥ sizes.2 := by
    rintro rfl
    exact (of_decide_eq_true hk).2
  have hfresh : (if warmIsFreeBlock = true then 0 else sizes.1) ≤ sizes.1 := by
    split_ifs <;> omega
  generalize (if warmIsFreeBlock = true then 0 else sizes.1) = fresh at hs hfresh
  rw [Nat.mod_eq_of_lt (by omega)] at hs
  by_cases hfull : sizes.2 ≠ 0 ∧ coldIsFreeBlock = false ∧
      sizes.2 + fresh > c.coldCodeAlloc - c.warmCodeAlloc
  · rw [if_pos hfull] at hs
    rw [← hs]
    exact h
  rw [if_neg hfull] at hs
  have hroom : coldIsFreeBlock = false → sizes.2 ≤ c.coldCodeAlloc := by
    intro hf
    by_contra hlarge
    exact hfull ⟨by omega, hf, by omega⟩
  rcases allocateWarm_spec h ha hwarmSize hwarmFree with
    hfail | ⟨warm, d, hwarm, hd, -, hcold, hlargest, htop⟩
  · rw [hfail] at hs
    rw [← hs]
    exact h
  · rw [hwarm] at hs
    dsimp only at hs
    rcases @allocateCold_spec d live alignment sizes.2 warm hd hcoldSize warmIsFreeBlock coldIsFreeBlock
      htop (by rwa [hlargest]) (by rwa [hcold]) with ⟨e, hfail, he⟩ | ⟨cold, e, hcold, he, -⟩
    · rw [hfail] at hs
      rw [← hs]
      exact he
    · rw [hcold] at hs
      rw [← hs]
      exact he

/-- What a resized block keeps is in use, and the rest of it is not. -/
theorem resizeCodeMemory_inv (h : Inv c (block :: live)) (ha : 0 < alignment) {newSize : ℕ}
    (hwrap : NoWrap alignment newSize 0) :
    Inv (c.resizeCodeMemory alignment block newSize).2
      ((c.resizeCodeMemory alignment block newSize).1 :: live) := by
  rw [resizeCodeMemory]
  split_ifs with hzero
  · exact h
  rw [NoWrap] at hwrap
  rw [Nat.mod_eq_of_lt (by omega)]
  have hsize := le_roundDown ha (newSize + methodHeaderBytes)
  generalize roundDown alignment (newSize + methodHeaderBytes + (alignment - 1)) = newSize at hsize ⊢
  have hold := Nat.mod_le block.size (2 ^ 32)
  generalize block.size % 2 ^ 32 = oldSize at hold ⊢
  have htop : block.top = block.base + block.size := rfl
  have hheader : methodHeaderBytes ≤ newSize := by omega
  dsimp only
  split_ifs with hge hwarm hsplit
  · exact h
  · -- the block is the last warm one
    have hlast : block.top = c.warmCodeAlloc := by
      have hborder := h.border
      have hside := h.live_side block (by simp)
      rw [OnSide] at hside
      omega
    have hinv : Inv { c with warmCodeAlloc := c.warmCodeAlloc - (oldSize - newSize) } live :=
      h.lowerWarm hlast (by omega) (by omega)
    have hwithin : Extent.Within ⟨block.base, newSize⟩ block := by
      simp only [Extent.Within, Extent.top]
      omega
    refine hinv.take (Or.inl ?_) hheader ?_ ?_
    · simp only [Extent.top]
      omega
    · exact fun e he => (h.free_live e he block (by simp)).mono e.within_refl hwithin
    · exact fun e he =>
        ((List.pairwise_cons.1 h.live_apart).1 e he).symm.mono e.within_refl hwithin
  · have hrest : Extent.Within ⟨block.base + newSize, block.base + oldSize - (block.base + newSize)⟩
        block := by
      simp only [Extent.Within, Extent.top]
      omega
    have hkept : Inv c (⟨block.base, newSize⟩ :: live) := by
      refine h.shrink ?_ hheader
      simp only [Extent.Within, Extent.top]
      omega
    refine hkept.addFreeBlock2 ha ((h.live_side block (by simp)).mono hrest) ?_ ?_
    · exact fun e he => (h.free_live e he block (by simp)).mono e.within_refl hrest
    · refine List.forall_mem_cons.2 ⟨Or.inr le_rfl, fun b hb => ?_⟩
      exact ((List.pairwise_cons.1 h.live_apart).1 b hb).mono hrest b.within_refl
  · exact h

/-- A freed block is no longer in use. -/
theorem free_inv (h : Inv c (block :: live)) (ha : 0 < alignment) :
    Inv (c.addFreeBlock2 alignment block.base block.top).2 live := by
  have hrange : (⟨block.base, block.top - block.base⟩ : Extent) = block := by
    rw [Extent.top, Nat.add_sub_cancel_left]
  refine h.drop.addFreeBlock2 ha ?_ ?_ ?_ <;> rw [hrange]
  · exact h.live_side block (by simp)
  · exact fun e he => h.free_live e he block (by simp)
  · exact (List.pairwise_cons.1 h.live_apart).1

theorem step_inv {s : State} {op : Op} (h : Inv s.cache s.live) (ha : 0 < alignment)
    (hop : op.Permitted alignment s) : Inv (step alignment s op).cache (step alignment s op).live := by
  cases op with
  | allocate warmCodeSize coldCodeSize needsToBeContiguous =>
    exact allocateCodeMemory_inv h ha hop needsToBeContiguous rfl
  | free block => exact free_inv (h.perm (List.perm_cons_erase hop)) ha
  | resize block newSize =>
    exact resizeCodeMemory_inv (h.perm (List.perm_cons_erase hop.1)) ha hop.2

theorem Reaches.inv {s : State} (h : Reaches alignment s) (ha : 0 < alignment) :
    Inv s.cache s.live := by
  induction h with
  | initialized hroom =>
    exact ⟨AddressOrdered.nil, hroom, by simp [initializeCache], by simp, by simp,
      by simp [initializeCache], List.Pairwise.nil, fun isCold => by cases isCold <;> rfl⟩
  | step h hop ih => exact step_inv ih ha hop

end Steps

/-- What holds of the free blocks beside the blocks in use. -/
structure Sound (c : CodeCache) (live : List Extent) : Prop where
  ordered : AddressOrdered c.freeBlockList
  live_disjoint : ∀ e ∈ c.freeBlockList, ∀ b ∈ live, Disjoint e.bytes b.bytes
  gap_disjoint : ∀ e ∈ c.freeBlockList,
    Disjoint e.bytes (Set.Ico c.warmCodeAlloc c.coldCodeAlloc)
  one_side : ∀ e ∈ c.freeBlockList,
    e.bytes ⊆ Set.Iio c.warmCodeAlloc ∨ e.bytes ⊆ Set.Ici c.coldCodeAlloc
  warm_largest : c.sizeOfLargestFreeWarmBlock =
    largestSize (c.freeBlockList.filter fun e => e.base < c.warmCodeAlloc)
  cold_largest : c.sizeOfLargestFreeColdBlock =
    largestSize (c.freeBlockList.filter fun e => e.base ≥ c.coldCodeAlloc)

/-- When an allocation of blocks of these sizes recycles a warm or a cold block, the
search finds one of at least that size. -/
def RecyclingFinds (alignment : ℕ) (c : CodeCache) (sizes : ℕ × ℕ) : Prop :=
  let warmIsFreeBlock := decide (sizes.1 ≠ 0 ∧ c.sizeOfLargestFreeWarmBlock ≥ sizes.1)
  (warmIsFreeBlock = true →
    ∃ b d, c.findFreeBlock sizes.1 false = (some b, d) ∧ sizes.1 ≤ b.size) ∧
  (sizes.2 ≠ 0 → c.sizeOfLargestFreeColdBlock ≥ sizes.2 → ∀ warm d,
    c.allocateWarm alignment sizes.1 warmIsFreeBlock = (some warm, d) →
      ∃ b d', d.findFreeBlock sizes.2 true = (some b, d') ∧ sizes.2 ≤ b.size)

section Soundness

variable {c : CodeCache} {live : List Extent} {alignment : ℕ}

theorem Inv.sound (h : Inv c live) : Sound c live where
  ordered := h.ordered
  live_disjoint e he b hb := (h.free_live e he b hb).disjoint
  gap_disjoint e he := by
    refine Set.disjoint_left.2 fun x hx hgap => ?_
    have hside := h.free_side e he
    rw [Extent.mem_bytes] at hx
    rw [Set.mem_Ico] at hgap
    rw [OnSide] at hside
    omega
  one_side e he := by
    refine (h.free_side e he).imp (fun hwarm x hx => ?_) fun hcold x hx => ?_
    · exact (Extent.mem_bytes.1 hx).2.trans_le hwarm
    · exact hcold.trans (Extent.mem_bytes.1 hx).1
  warm_largest := by
    refine (h.largest false).trans (congrArg largestSize (List.filter_congr fun e _ => ?_))
    simp [eligible, ← decide_not]
  cold_largest := by
    refine (h.largest true).trans (congrArg largestSize (List.filter_congr fun e _ => ?_))
    simp [eligible, ← decide_not]

theorem Inv.recyclingFinds (h : Inv c live) (ha : 0 < alignment) {sizes : ℕ × ℕ}
    (hwarm : sizes.1 = 0 ∨ methodHeaderBytes ≤ sizes.1)
    (hcold : sizes.2 = 0 ∨ methodHeaderBytes ≤ sizes.2) : RecyclingFinds alignment c sizes := by
  constructor
  · intro hrecycle
    obtain ⟨hne, hle⟩ := of_decide_eq_true hrecycle
    obtain ⟨taken, d, hfind, hsize, -⟩ := findFreeBlock_spec false h (hwarm.resolve_left hne) hle
    exact ⟨taken, d, hfind, hsize⟩
  · intro hne hle warm d hrun
    rcases allocateWarm_spec h ha hwarm of_decide_eq_true with
      hfail | ⟨warm', d', hsome, hinv, -, -, hlargest, -⟩
    · rw [hrun] at hfail
      simp at hfail
    · obtain ⟨-, rfl⟩ := Prod.mk.inj (hrun.symm.trans hsome)
      have hle' : sizes.2 ≤ d.sizeOfLargest true := hle.trans hlargest.ge
      obtain ⟨taken, d', hfind, hsize, -⟩ :=
        findFreeBlock_spec true hinv (hcold.resolve_left hne) hle'
      exact ⟨taken, d', hfind, hsize⟩

/-- In every state that a run reaches the free list is ordered and apart from the
blocks in use and from the space between the borders, no free block lies on both
sides, the cached sizes are those of the largest free blocks, and an allocation that
decides to recycle finds its blocks. -/
theorem reaches_sound (ha : 0 < alignment) (s : State) (h : Reaches alignment s) :
    Sound s.cache s.live ∧ ∀ warmCodeSize coldCodeSize,
      NoWrap alignment warmCodeSize coldCodeSize →
        RecyclingFinds alignment s.cache
          (performSizeAdjustments alignment warmCodeSize coldCodeSize false true) := by
  refine ⟨(h.inv ha).sound, fun warmCodeSize coldCodeSize hwrap => ?_⟩
  obtain ⟨hwarm, hcold, -⟩ := performSizeAdjustments_spec ha hwrap false rfl
  exact (h.inv ha).recyclingFinds ha hwarm hcold

/-- Two methods, of which the first one is freed: the next one may take its place. -/
theorem reaches_sound_freed :
    let s := step 32 (step 32 (step 32 ⟨initializeCache 32 4096 8192, []⟩
      (.allocate 200 100 false)) (.allocate 40 0 false)) (.free ⟨4128, 224⟩)
    s.cache.freeBlockList = [⟨4128, 224⟩] ∧ s.cache.sizeOfLargestFreeWarmBlock = 224 ∧
      ∃ b d, s.cache.findFreeBlock 128 false = (some b, d) ∧ 128 ≤ b.size := by
  intro s
  have hreach : Reaches 32 s :=
    .step (.step (.step (.initialized (by decide)) (by unfold Op.Permitted NoWrap; decide))
      (by unfold Op.Permitted NoWrap; decide)) (by unfold Op.Permitted; decide)
  obtain ⟨-, hfinds⟩ := reaches_sound (by decide) s hreach
  have hwarm := (hfinds 100 0 (by unfold NoWrap; decide)).1
  exact ⟨by decide +kernel, by decide +kernel, hwarm (by decide +kernel)⟩

end Soundness

end OMR.Compiler.CodeCache
