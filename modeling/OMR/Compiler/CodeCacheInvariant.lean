import OMR.Compiler.CodeCacheFreeList

/-!
# The invariant of a code cache

The blocks that have been handed out are the ghost part of the state: the free
list is described together with them. The borders of the warm and the cold part
move towards each other when memory is taken from between them, and the warm
border moves back when the last warm block shrinks.
-/

namespace OMR.Compiler.CodeCache

open OMR.Lib

/-- The cached size of the largest warm or cold free block. -/
def sizeOfLargest (c : CodeCache) (isCold : Bool) : ℕ :=
  if isCold then c.sizeOfLargestFreeColdBlock else c.sizeOfLargestFreeWarmBlock

/-- A code cache whose blocks `live` are in use. -/
structure Inv (c : CodeCache) (live : List Extent) : Prop where
  ordered : AddressOrdered c.freeBlockList
  border : c.warmCodeAlloc ≤ c.coldCodeAlloc
  free_side : ∀ e ∈ c.freeBlockList, c.OnSide e
  live_side : ∀ b ∈ live, c.OnSide b
  live_size : ∀ b ∈ live, methodHeaderBytes ≤ b.size
  free_live : ∀ e ∈ c.freeBlockList, ∀ b ∈ live, e.Apart b
  live_apart : live.Pairwise Extent.Apart
  largest : ∀ isCold, c.sizeOfLargest isCold =
    largestSize (c.freeBlockList.filter (c.eligible isCold))

section Eligible

variable {c d : CodeCache} {e link : Extent} {isCold : Bool}

/-- A search looks at the blocks of its side. -/
theorem eligible_iff (hborder : c.warmCodeAlloc ≤ c.coldCodeAlloc) (hside : c.OnSide e)
    (hpos : 0 < e.size) :
    c.eligible isCold e ↔ if isCold then c.coldCodeAlloc ≤ e.base else e.top ≤ c.warmCodeAlloc := by
  simp only [OnSide, Extent.top] at hside
  cases isCold
  · simp only [eligible, Extent.top, Bool.false_eq_true, if_false, Bool.not_eq_true',
      decide_eq_false_iff_not]
    omega
  · simp only [eligible, if_true, Bool.not_eq_true', decide_eq_false_iff_not]
    omega

/-- Both parts of the cache stay what they are when the borders move past no block. -/
theorem eligible_congr (hc : c.warmCodeAlloc ≤ c.coldCodeAlloc)
    (hd : d.warmCodeAlloc ≤ d.coldCodeAlloc) (hside : c.OnSide e) (hpos : 0 < e.size)
    (hwarm : e.top ≤ c.warmCodeAlloc → e.top ≤ d.warmCodeAlloc)
    (hcold : c.coldCodeAlloc ≤ e.base → d.coldCodeAlloc ≤ e.base) :
    d.eligible isCold e = c.eligible isCold e := by
  have hdside : d.OnSide e := hside.imp hwarm hcold
  rw [Bool.eq_iff_iff, eligible_iff hc hside hpos, eligible_iff hd hdside hpos]
  simp only [OnSide, Extent.top] at hside hwarm hdside ⊢
  cases isCold
  · simp only [Bool.false_eq_true, if_false]
    omega
  · simp only [if_true]
    omega

/-- A part of a block is on its side. -/
theorem OnSide.mono (h : c.OnSide link) (hw : e.Within link) : c.OnSide e :=
  h.imp (fun h => hw.2.trans h) fun h => h.trans hw.1

/-- A block is on the same side as one that contains it. -/
theorem eligible_within (hborder : c.warmCodeAlloc ≤ c.coldCodeAlloc) (hside : c.OnSide link)
    (hpos : 0 < e.size) (hw : e.Within link) : c.eligible isCold e = c.eligible isCold link := by
  have hlink : 0 < link.size := by
    simp only [Extent.Within, Extent.top] at hw
    omega
  rw [Bool.eq_iff_iff, eligible_iff hborder (hside.mono hw) hpos, eligible_iff hborder hside hlink]
  simp only [OnSide, Extent.Within, Extent.top] at *
  cases isCold
  · simp only [Bool.false_eq_true, if_false]
    omega
  · simp only [if_true]
    omega

/-- What lies between the borders is apart from every block. -/
theorem OnSide.apart_of_gap (h : c.OnSide e) {b : Extent} (hlo : c.warmCodeAlloc ≤ b.base)
    (hhi : b.top ≤ c.coldCodeAlloc) : e.Apart b :=
  h.imp (fun h => h.trans hlo) fun h => hhi.trans h

end Eligible

namespace Inv

variable {c : CodeCache} {live : List Extent} {b : Extent}

theorem perm {live' : List Extent} (h : Inv c live) (hp : live.Perm live') : Inv c live' where
  ordered := h.ordered
  border := h.border
  free_side := h.free_side
  live_side b hb := h.live_side b (hp.mem_iff.2 hb)
  live_size b hb := h.live_size b (hp.mem_iff.2 hb)
  free_live e he b hb := h.free_live e he b (hp.mem_iff.2 hb)
  live_apart := (hp.pairwise_iff fun hab => hab.symm).1 h.live_apart
  largest := h.largest

/-- A block that is no longer in use. -/
theorem drop (h : Inv c (b :: live)) : Inv c live where
  ordered := h.ordered
  border := h.border
  free_side := h.free_side
  live_side e he := h.live_side e (by simp [he])
  live_size e he := h.live_size e (by simp [he])
  free_live e he b hb := h.free_live e he b (by simp [hb])
  live_apart := (List.pairwise_cons.1 h.live_apart).2
  largest := h.largest

/-- A new block in use. -/
theorem take (h : Inv c live) (hside : c.OnSide b) (hsize : methodHeaderBytes ≤ b.size)
    (hfree : ∀ e ∈ c.freeBlockList, e.Apart b) (hlive : ∀ e ∈ live, e.Apart b) :
    Inv c (b :: live) where
  ordered := h.ordered
  border := h.border
  free_side := h.free_side
  live_side := List.forall_mem_cons.2 ⟨hside, h.live_side⟩
  live_size := List.forall_mem_cons.2 ⟨hsize, h.live_size⟩
  free_live e he := List.forall_mem_cons.2 ⟨hfree e he, h.free_live e he⟩
  live_apart := List.pairwise_cons.2 ⟨fun e he => (hlive e he).symm, h.live_apart⟩
  largest := h.largest

/-- What is left of a block in use. -/
theorem shrink {b' : Extent} (h : Inv c (b :: live)) (hw : b'.Within b)
    (hsize : methodHeaderBytes ≤ b'.size) : Inv c (b' :: live) := by
  refine h.drop.take ((h.live_side b (by simp)).mono hw) hsize ?_ ?_
  · exact fun e he => (h.free_live e he b (by simp)).mono e.within_refl hw
  · exact fun e he => ((List.pairwise_cons.1 h.live_apart).1 e he).symm.mono e.within_refl hw

/-- The borders may move past no block. -/
theorem moveBorders (h : Inv c live) {warm cold : ℕ} (hborder : warm ≤ cold)
    (hwarm : ∀ e ∈ c.freeBlockList ++ live, e.top ≤ c.warmCodeAlloc → e.top ≤ warm)
    (hcold : ∀ e ∈ c.freeBlockList ++ live, c.coldCodeAlloc ≤ e.base → cold ≤ e.base) :
    Inv { c with warmCodeAlloc := warm, coldCodeAlloc := cold } live where
  ordered := h.ordered
  border := hborder
  free_side e he := (h.free_side e he).imp (hwarm e (by simp [he])) (hcold e (by simp [he]))
  live_side e he := (h.live_side e he).imp (hwarm e (by simp [he])) (hcold e (by simp [he]))
  live_size := h.live_size
  free_live := h.free_live
  live_apart := h.live_apart
  largest isCold := by
    refine (h.largest isCold).trans (congrArg largestSize (List.filter_congr fun e he => ?_))
    exact (eligible_congr h.border hborder (h.free_side e he) (h.ordered.size_pos e he)
      (hwarm e (by simp [he])) (hcold e (by simp [he]))).symm

/-- Memory is taken from between the borders. -/
theorem narrow (h : Inv c live) {warm cold : ℕ} (hborder : warm ≤ cold)
    (hwarm : c.warmCodeAlloc ≤ warm) (hcold : cold ≤ c.coldCodeAlloc) :
    Inv { c with warmCodeAlloc := warm, coldCodeAlloc := cold } live :=
  h.moveBorders hborder (fun _ _ he => he.trans hwarm) fun _ _ he => hcold.trans he

/-- A new block between the old borders that is on a side of the new ones. -/
theorem carve (h : Inv c live) {warm cold : ℕ} (hborder : warm ≤ cold)
    (hwarm : c.warmCodeAlloc ≤ warm) (hcold : cold ≤ c.coldCodeAlloc)
    (hlo : c.warmCodeAlloc ≤ b.base) (hhi : b.top ≤ c.coldCodeAlloc)
    (hside : b.top ≤ warm ∨ cold ≤ b.base) (hsize : methodHeaderBytes ≤ b.size) :
    Inv { c with warmCodeAlloc := warm, coldCodeAlloc := cold } (b :: live) := by
  refine (h.narrow hborder hwarm hcold).take hside hsize ?_ ?_
  · exact fun e he => (h.free_side e he).apart_of_gap hlo hhi
  · exact fun e he => (h.live_side e he).apart_of_gap hlo hhi

/-- The end of the last warm block is given back. -/
theorem lowerWarm (h : Inv c (b :: live)) (htop : b.top = c.warmCodeAlloc) {warm : ℕ}
    (hlo : b.base ≤ warm) (hhi : warm ≤ b.top) :
    Inv { c with warmCodeAlloc := warm } live := by
  have hbelow : ∀ e : Extent, 0 < e.size → e.Apart b → e.top ≤ c.warmCodeAlloc → e.top ≤ warm := by
    intro e hpos hap hle
    simp only [Extent.Apart, Extent.top] at *
    omega
  refine h.drop.moveBorders ((hhi.trans htop.le).trans h.border) ?_ fun _ _ he => he
  intro e he
  rcases List.mem_append.1 he with he | he
  · exact hbelow e (h.ordered.size_pos e he) (h.free_live e he b (by simp))
  · have hsize := h.live_size e (by simp [he])
    rw [methodHeaderBytes] at hsize
    exact hbelow e (by omega) ((List.pairwise_cons.1 h.live_apart).1 e he).symm

end Inv

section Release

variable {c : CodeCache} {link : Extent} {live : List Extent} {alignment start stop : ℕ}

@[simp] theorem updateMaxSizeOfFreeBlocks_freeBlockList :
    (c.updateMaxSizeOfFreeBlocks link).freeBlockList = c.freeBlockList := by
  simp only [updateMaxSizeOfFreeBlocks]
  split_ifs <;> rfl

@[simp] theorem updateMaxSizeOfFreeBlocks_warmCodeAlloc :
    (c.updateMaxSizeOfFreeBlocks link).warmCodeAlloc = c.warmCodeAlloc := by
  simp only [updateMaxSizeOfFreeBlocks]
  split_ifs <;> rfl

@[simp] theorem updateMaxSizeOfFreeBlocks_coldCodeAlloc :
    (c.updateMaxSizeOfFreeBlocks link).coldCodeAlloc = c.coldCodeAlloc := by
  simp only [updateMaxSizeOfFreeBlocks]
  split_ifs <;> rfl

/-- Only the size of the side of the block is updated. -/
theorem updateMaxSizeOfFreeBlocks_sizeOfLargest (hborder : c.warmCodeAlloc ≤ c.coldCodeAlloc)
    (hside : c.OnSide link) (hpos : 0 < link.size) (isCold : Bool) :
    (c.updateMaxSizeOfFreeBlocks link).sizeOfLargest isCold =
      max (c.sizeOfLargest isCold) (if c.eligible isCold link then link.size else 0) := by
  simp only [OnSide, Extent.top] at hside
  by_cases hwarm : link.base < c.warmCodeAlloc
  · have hcold : link.base < c.coldCodeAlloc := hwarm.trans_le hborder
    have helig : c.eligible isCold link = !isCold := by
      cases isCold <;> simp [eligible, hwarm, hcold]
    rw [updateMaxSizeOfFreeBlocks, if_pos hwarm, helig]
    by_cases hbig : link.size > c.sizeOfLargestFreeWarmBlock
    · rw [if_pos hbig]
      cases isCold
      · exact (max_eq_right hbig.le).symm
      · exact (Nat.max_zero _).symm
    · rw [if_neg hbig]
      cases isCold
      · exact (max_eq_left (not_lt.1 hbig)).symm
      · exact (Nat.max_zero _).symm
  · have hcold : ¬ link.base < c.coldCodeAlloc := by omega
    have helig : c.eligible isCold link = isCold := by
      cases isCold <;> simp [eligible, not_lt.1 hwarm, not_lt.1 hcold]
    rw [updateMaxSizeOfFreeBlocks, if_neg hwarm, helig]
    by_cases hbig : link.size > c.sizeOfLargestFreeColdBlock
    · rw [if_pos hbig]
      cases isCold
      · exact (Nat.max_zero _).symm
      · exact (max_eq_right hbig.le).symm
    · rw [if_neg hbig]
      cases isCold
      · exact (Nat.max_zero _).symm
      · exact (max_eq_left (not_lt.1 hbig)).symm

theorem le_alignUp (ha : 0 < alignment) (x : ℕ) : x ≤ alignUp alignment x := by
  rw [alignUp, roundDown]
  have := Nat.div_add_mod' (x + (alignment - 1)) alignment
  have := Nat.mod_lt (x + (alignment - 1)) ha
  omega

theorem roundDown_le (x : ℕ) : roundDown alignment x ≤ x := Nat.div_mul_le_self x alignment

/-- A list with one new block, for which the largest size is updated. -/
theorem Inv.linkBlock {l' : List Extent} (h : Inv c live) (hordered : AddressOrdered l')
    (hlinkMem : link ∈ l') (hmem : ∀ e ∈ l', e = link ∨ e ∈ c.freeBlockList)
    (hside : c.OnSide link) (hlive : ∀ b ∈ live, link.Apart b)
    (hmax : ∀ isCold, largestSize (l'.filter (c.eligible isCold)) =
      max (largestSize (c.freeBlockList.filter (c.eligible isCold)))
        (if c.eligible isCold link then link.size else 0)) :
    Inv (updateMaxSizeOfFreeBlocks { c with freeBlockList := l' } link) live := by
  constructor
  case ordered => simpa using hordered
  case border => simpa using h.border
  case free_side =>
    intro e he
    simp only [updateMaxSizeOfFreeBlocks_freeBlockList] at he
    simp only [OnSide, updateMaxSizeOfFreeBlocks_warmCodeAlloc,
      updateMaxSizeOfFreeBlocks_coldCodeAlloc]
    rcases hmem e he with rfl | he
    · exact hside
    · exact h.free_side e he
  case live_side =>
    intro b hb
    simp only [OnSide, updateMaxSizeOfFreeBlocks_warmCodeAlloc,
      updateMaxSizeOfFreeBlocks_coldCodeAlloc]
    exact h.live_side b hb
  case live_size => exact h.live_size
  case free_live =>
    intro e he b hb
    simp only [updateMaxSizeOfFreeBlocks_freeBlockList] at he
    rcases hmem e he with rfl | he
    · exact hlive b hb
    · exact h.free_live e he b hb
  case live_apart => exact h.live_apart
  case largest =>
    intro isCold
    have heq : ∀ e, CodeCache.eligible (updateMaxSizeOfFreeBlocks { c with freeBlockList := l' } link)
        isCold e = c.eligible isCold e := fun e => by simp [eligible]
    have hupdate := @updateMaxSizeOfFreeBlocks_sizeOfLargest { c with freeBlockList := l' } link
      h.border hside (hordered.size_pos link hlinkMem) isCold
    rw [hupdate, updateMaxSizeOfFreeBlocks_freeBlockList, List.filter_congr fun e _ => heq e,
      hmax isCold, ← h.largest isCold]
    rfl

/-- A range that is in no free block and in no block in use enters the free list. -/
theorem Inv.addFreeBlock2 (h : Inv c live) (ha : 0 < alignment)
    (hside : c.OnSide ⟨start, stop - start⟩)
    (hfree : ∀ e ∈ c.freeBlockList, e.Apart ⟨start, stop - start⟩)
    (hlive : ∀ b ∈ live, Extent.Apart ⟨start, stop - start⟩ b) :
    Inv (c.addFreeBlock2 alignment start stop).2 live := by
  by_cases hshort : stop ≤ alignUp alignment start + freeCacheBlockBytes
  · simp only [CodeCache.addFreeBlock2, if_pos hshort]
    exact h
  simp only [CodeCache.addFreeBlock2, if_neg hshort]
  have hle := le_alignUp ha start
  generalize alignUp alignment start = first at hshort hle ⊢
  have hfirst : first < stop := by omega
  have hwithin : Extent.Within ⟨first, stop - first⟩ ⟨start, stop - start⟩ := by
    simp only [Extent.Within, Extent.top]
    omega
  have hapart : ∀ e ∈ c.freeBlockList, e.Apart ⟨first, stop - first⟩ :=
    fun e he => (hfree e he).mono e.within_refl hwithin
  have hadded := @insertFreeBlock_added c first stop _ h.ordered hfirst hapart
  generalize c.insertFreeBlock first stop c.freeBlockList = r at hadded ⊢
  obtain ⟨l', link⟩ := r
  have hpos := h.ordered.size_pos
  have hlink : c.OnSide link := by
    obtain ⟨xs, mid, ys, hl, -, hfused, -, -⟩ := hadded
    have hmem : ∀ e ∈ mid, e ∈ c.freeBlockList := fun e he => by rw [hl]; simp [he]
    exact hfused.onSide hfirst (fun e he => hpos e (hmem e he))
      (fun e he => h.free_side e (hmem e he)) (hside.mono hwithin)
  have hlinkLive : ∀ b ∈ live, link.Apart b := by
    intro b hb
    obtain ⟨xs, mid, ys, hl, -, hfused, -, -⟩ := hadded
    have hmem : ∀ e ∈ mid, e ∈ c.freeBlockList := fun e he => by rw [hl]; simp [he]
    exact hfused.apart hfirst (fun e he => hpos e (hmem e he)) (h.live_size b hb)
      (fun e he => h.free_live e (hmem e he) b hb) ((hlive b hb).mono hwithin b.within_refl)
  exact h.linkBlock (hadded.ordered h.ordered hfirst hapart) hadded.link_mem (fun e he => hadded.mem he)
    hlink hlinkLive fun isCold => hadded.largestSize hfirst hpos fun e he hw =>
      eligible_within h.border hlink (hpos e he) hw

end Release

end OMR.Compiler.CodeCache
