import OMR.Compiler.CodeCacheRuns

/-!
# An allocation of code memory is all or nothing

The check at the beginning of `allocateCodeMemory` foresees whether the cold part will find its
place once the warm part has taken its own. That rests on the alignment of both borders: then
rounding changes no address, and what remains of the gap is what the check says.
-/

namespace OMR.Compiler.CodeCache

open OMR.Lib

/-- `allocateCodeMemory`, with the free space of the repository, which the source lowers when it
moves a border. -/
def allocateInRepository (alignment : ℕ) (c : CodeCache) (freeSpace : ℤ)
    (warmCodeSize coldCodeSize : ℕ) (needsToBeContiguous isMethodHeaderNeeded : Bool) :
    Option (Extent × Extent) × CodeCache × ℤ :=
  let sizes := performSizeAdjustments alignment warmCodeSize coldCodeSize needsToBeContiguous
    isMethodHeaderNeeded
  let warmIsFreeBlock := decide (needsToBeContiguous = false ∧ sizes.1 ≠ 0 ∧
    c.sizeOfLargestFreeWarmBlock ≥ sizes.1)
  let coldIsFreeBlock := decide (needsToBeContiguous = false ∧ sizes.2 ≠ 0 ∧
    c.sizeOfLargestFreeColdBlock ≥ sizes.2)
  if sizes.2 ≠ 0 ∧ coldIsFreeBlock = false ∧
      (sizes.2 + (if warmIsFreeBlock then 0 else sizes.1)) % 2 ^ 64 >
        c.coldCodeAlloc - c.warmCodeAlloc then (none, c, freeSpace)
  else
    match c.allocateWarm alignment sizes.1 warmIsFreeBlock with
    | (none, d) => (none, d, freeSpace)
    | (some warm, d) =>
      let freeSpace := freeSpace - (d.warmCodeAlloc - c.warmCodeAlloc)
      match d.allocateCold alignment warm warmIsFreeBlock sizes.2 coldIsFreeBlock with
      | (none, e) => (none, e, freeSpace)
      | (some cold, e) => (some (warm, cold), e, freeSpace - (d.coldCodeAlloc - e.coldCodeAlloc))

/-- The free space of the repository takes no part in the allocation. -/
theorem allocateInRepository_eq (alignment : ℕ) (c : CodeCache) (freeSpace : ℤ)
    (warmCodeSize coldCodeSize : ℕ) (needsToBeContiguous isMethodHeaderNeeded : Bool) :
    c.allocateCodeMemory alignment warmCodeSize coldCodeSize needsToBeContiguous
        isMethodHeaderNeeded =
      ((c.allocateInRepository alignment freeSpace warmCodeSize coldCodeSize needsToBeContiguous
          isMethodHeaderNeeded).1,
        (c.allocateInRepository alignment freeSpace warmCodeSize coldCodeSize needsToBeContiguous
          isMethodHeaderNeeded).2.1) := by
  unfold allocateCodeMemory allocateInRepository
  generalize performSizeAdjustments alignment warmCodeSize coldCodeSize needsToBeContiguous
    isMethodHeaderNeeded = sizes
  dsimp only
  generalize (if decide (needsToBeContiguous = false ∧ sizes.1 ≠ 0 ∧
    c.sizeOfLargestFreeWarmBlock ≥ sizes.1) = true then 0 else sizes.1) = fresh
  split_ifs
  · rfl
  · cases c.allocateWarm alignment _ _ with
    | mk warm d =>
      cases warm with
      | none => rfl
      | some warm =>
        dsimp only
        cases d.allocateCold alignment warm _ _ _ with
        | mk cold e => cases cold <;> rfl

/-- A code cache with aligned borders and free blocks, of which the list and the cached sizes are
right, and the blocks in use. -/
structure Aligned (alignment : ℕ) (c : CodeCache) (live : List Extent) : Prop where
  free : Inv c []
  warm_dvd : alignment ∣ c.warmCodeAlloc
  cold_dvd : alignment ∣ c.coldCodeAlloc
  free_dvd : ∀ e ∈ c.freeBlockList, alignment ∣ e.base
  live_side : ∀ b ∈ live, c.OnSide b
  free_live : ∀ e ∈ c.freeBlockList, ∀ b ∈ live, e.Apart b

/-- The states of runs are such, when they are aligned. -/
theorem Inv.aligned {alignment : ℕ} {c : CodeCache} {live : List Extent} (h : Inv c live)
    (hwarm : alignment ∣ c.warmCodeAlloc) (hcold : alignment ∣ c.coldCodeAlloc)
    (hfree : ∀ e ∈ c.freeBlockList, alignment ∣ e.base) : Aligned alignment c live where
  free :=
    ⟨h.ordered, h.border, h.free_side, by simp, by simp, by simp, List.Pairwise.nil, h.largest⟩
  warm_dvd := hwarm
  cold_dvd := hcold
  free_dvd := hfree
  live_side := h.live_side
  free_live := h.free_live

/-- The bytes of a header, if there is one. -/
def headerBytes (isMethodHeaderNeeded : Bool) : ℕ :=
  if isMethodHeaderNeeded then methodHeaderBytes else 0

section Sizes

variable {alignment n : ℕ} {isMethodHeaderNeeded : Bool}

theorem dvd_roundDown (alignment x : ℕ) : alignment ∣ roundDown alignment x := Nat.dvd_mul_left ..

theorem roundDown_of_dvd {x : ℕ} (h : alignment ∣ x) : roundDown alignment x = x :=
  Nat.div_mul_cancel h

theorem alignUp_of_dvd {x : ℕ} (ha : 0 < alignment) (h : alignment ∣ x) :
    alignUp alignment x = x := by
  obtain ⟨k, rfl⟩ := h
  have hdiv : (alignment * k + (alignment - 1)) / alignment = k := by
    rw [Nat.mul_add_div ha, Nat.div_eq_of_lt (by omega), Nat.add_zero]
  rw [alignUp, roundDown, hdiv, Nat.mul_comm]

theorem dvd_adjustSize (n : ℕ) : alignment ∣ adjustSize alignment isMethodHeaderNeeded n := by
  unfold adjustSize
  split
  · exact Nat.dvd_zero _
  · exact dvd_roundDown ..

theorem adjustSize_le_headerBytes (alignment : ℕ) (isMethodHeaderNeeded : Bool) (n : ℕ) :
    adjustSize alignment isMethodHeaderNeeded n ≤
      n + headerBytes isMethodHeaderNeeded + (alignment - 1) := by
  unfold adjustSize headerBytes
  split
  · exact Nat.zero_le _
  · exact (roundDown_le _).trans (Nat.mod_le ..)

/-- The adjusted sizes are aligned, and the sum that the check needs does not wrap around. -/
theorem performSizeAdjustments_aligned {warmCodeSize coldCodeSize : ℕ} (ha : 0 < alignment)
    (hwrap : warmCodeSize + coldCodeSize + 2 * (headerBytes isMethodHeaderNeeded + alignment) ≤
      2 ^ 64) (needsToBeContiguous : Bool) {sizes : ℕ × ℕ}
    (hsizes : performSizeAdjustments alignment warmCodeSize coldCodeSize needsToBeContiguous
      isMethodHeaderNeeded = sizes) :
    alignment ∣ sizes.1 ∧ alignment ∣ sizes.2 ∧ sizes.2 + sizes.1 < 2 ^ 64 := by
  unfold performSizeAdjustments at hsizes
  split at hsizes
  · subst hsizes
    rw [Nat.mod_eq_of_lt (by omega)]
    have hle := adjustSize_le_headerBytes alignment isMethodHeaderNeeded
      (warmCodeSize + coldCodeSize)
    exact ⟨dvd_adjustSize _, Nat.dvd_zero _, by dsimp only; omega⟩
  · subst hsizes
    have hwarm := adjustSize_le_headerBytes alignment isMethodHeaderNeeded warmCodeSize
    have hcold := adjustSize_le_headerBytes alignment isMethodHeaderNeeded coldCodeSize
    exact ⟨dvd_adjustSize _, dvd_adjustSize _, by dsimp only; omega⟩

end Sizes

section Search

variable {c : CodeCache} {size : ℕ} {isCold : Bool}

/-- The search finds a block of its side, if the largest one there is large enough. -/
theorem findFreeBlock_found (hpos : 0 < size)
    (hle : size ≤ largestSize (c.freeBlockList.filter (c.eligible isCold))) :
    ∃ best ∈ c.freeBlockList.filter (c.eligible isCold), ∃ d, size ≤ best.size ∧
      c.findFreeBlock size isCold = (some (takenFrom size best), d) ∧
      d.warmCodeAlloc = c.warmCodeAlloc ∧ d.coldCodeAlloc = c.coldCodeAlloc ∧
      d.freeBlockList = unlink best.base (leftOver size best) c.freeBlockList ∧
      d.sizeOfLargest (!isCold) = c.sizeOfLargest (!isCold) := by
  obtain ⟨best, hbest⟩ := search_bestFit hle hpos
  obtain ⟨seen, hperm, hscanned⟩ := @search_scanned c size isCold [] c.freeBlockList _ Scanned.nil
  rw [List.append_nil] at hperm
  obtain ⟨hbestSeen, hbestSize⟩ := hscanned.best_some best hbest
  refine ⟨best, hperm.mem_iff.1 hbestSeen, _, hbestSize, findFreeBlock_eq hbest, ?_⟩
  split_ifs
  · refine ⟨by simp, by simp, by simp, ?_⟩
    rw [setLargest_sizeOfLargest, if_neg (by simp)]
    rfl
  · exact ⟨rfl, rfl, rfl, rfl⟩

/-- The blocks of the other side stay as they are. -/
theorem filter_unlink {best : Extent} (h : Inv c []) (hbest : best ∈ c.freeBlockList)
    (hside : c.eligible isCold best = true) :
    (unlink best.base (leftOver size best) c.freeBlockList).filter (c.eligible (!isCold)) =
      c.freeBlockList.filter (c.eligible (!isCold)) := by
  have hbestSide := h.free_side best hbest
  have hnot : ¬ c.eligible (!isCold) best = true := by
    rw [eligible_not h.border hbestSide (h.ordered.size_pos best hbest), hside]
    simp
  have hleft : (leftOver size best).toList.filter (c.eligible (!isCold)) = [] := by
    refine List.filter_eq_nil_iff.2 fun left hleft => ?_
    obtain ⟨hwithin, hpos⟩ := mem_left_within hleft
    rwa [eligible_within h.border hbestSide hpos hwithin]
  obtain ⟨xs, ys, hl⟩ := List.append_of_mem hbest
  have hordered := h.ordered
  rw [hl] at hordered ⊢
  rw [unlink_eq hordered, List.filter_append, List.filter_append, hleft, List.filter_append,
    List.filter_cons_of_neg hnot, List.nil_append]

end Search

section Allocate

variable {alignment n : ℕ} {c d : CodeCache} {live : List Extent} {warm : Extent}

/-- The warm part: nothing, without a change, or a block below the warm border. What the cold part
reads is as before. -/
theorem Aligned.allocateWarm (h : Aligned alignment c live) (ha : 0 < alignment)
    (hn : alignment ∣ n) {warmIsFreeBlock : Bool}
    (hfree : warmIsFreeBlock = true → n ≠ 0 ∧ c.sizeOfLargestFreeWarmBlock ≥ n) :
    c.allocateWarm alignment n warmIsFreeBlock = (none, c) ∨
      ∃ warm d, c.allocateWarm alignment n warmIsFreeBlock = (some warm, d) ∧
        alignment ∣ warm.base ∧ n ≤ warm.size ∧ warm.top ≤ d.warmCodeAlloc ∧
        (∀ b ∈ live, warm.Apart b) ∧
        d.warmCodeAlloc = c.warmCodeAlloc + (if warmIsFreeBlock then 0 else n) ∧
        d.warmCodeAlloc ≤ d.coldCodeAlloc ∧ d.coldCodeAlloc = c.coldCodeAlloc ∧
        d.sizeOfLargestFreeColdBlock = c.sizeOfLargestFreeColdBlock ∧
        d.freeBlockList.filter (d.eligible true) = c.freeBlockList.filter (c.eligible true) := by
  have hborder := h.free.border
  have hgap : ∀ b : Extent, c.warmCodeAlloc ≤ b.base → b.top ≤ c.coldCodeAlloc →
      ∀ b' ∈ live, b.Apart b' := fun b hlo hhi b' hb' =>
    ((h.live_side b' hb').apart_of_gap hlo hhi).symm
  unfold CodeCache.allocateWarm
  cases warmIsFreeBlock with
  | true =>
    obtain ⟨hne, hle⟩ := hfree rfl
    have hlargest : n ≤ largestSize (c.freeBlockList.filter (c.eligible false)) := by
      rw [← h.free.largest false]
      exact hle
    obtain ⟨best, hbest, d, hsize, hfind, hwarm, hcold, hlist, hother⟩ :=
      findFreeBlock_found (Nat.pos_of_ne_zero hne) hlargest
    obtain ⟨hmem, hside⟩ := List.mem_filter.1 hbest
    obtain ⟨htaken, hwithin, -⟩ := takenFrom_spec hsize
    have htop := (eligible_iff h.free.border (h.free.free_side best hmem)
      (h.free.ordered.size_pos best hmem)).1 hside
    rw [if_neg (by decide)] at htop
    rw [if_pos rfl, if_pos rfl]
    have heligible : d.eligible true = c.eligible true := by
      funext e
      simp only [eligible, hcold, if_true]
    refine .inr ⟨_, d, hfind, h.free_dvd best hmem, htaken, ?_, fun b hb => ?_, hwarm, ?_, hcold,
      hother, ?_⟩
    · rw [hwarm]
      exact hwithin.2.trans htop
    · exact (h.free_live best hmem b hb).mono hwithin b.within_refl
    · rw [hwarm, hcold]
      exact hborder
    · rw [heligible, hlist]
      exact filter_unlink h.free hmem hside
  | false =>
    simp only [Bool.false_eq_true, if_false]
    by_cases hzero : n = 0
    · subst hzero
      rw [if_neg (by simp)]
      refine .inr ⟨_, c, rfl, h.warm_dvd, le_rfl, le_rfl, hgap _ le_rfl hborder, rfl, hborder, rfl,
        rfl, rfl⟩
    · rw [if_pos hzero]
      simp only [alignUp_of_dvd ha h.warm_dvd]
      split
      next => exact .inl rfl
      next hfits =>
        exact .inr ⟨_, _, rfl, h.warm_dvd, le_rfl, le_rfl, hgap _ le_rfl (not_lt.1 hfits), rfl,
          not_lt.1 hfits, rfl, rfl, rfl⟩

/-- The cold part gets a block above the cold border, if the check has found room for it. -/
theorem Aligned.allocateCold (h : Aligned alignment c live) (warm : Extent)
    (warmIsFreeBlock : Bool) (hn : alignment ∣ n)
    (hlo : c.warmCodeAlloc ≤ d.warmCodeAlloc) (hborder : d.warmCodeAlloc ≤ d.coldCodeAlloc)
    (hcold : d.coldCodeAlloc = c.coldCodeAlloc)
    (hcolds : d.freeBlockList.filter (d.eligible true) = c.freeBlockList.filter (c.eligible true))
    {coldIsFreeBlock : Bool}
    (hfree : coldIsFreeBlock = true → n ≠ 0 ∧ c.sizeOfLargestFreeColdBlock ≥ n)
    (hroom : n ≠ 0 → coldIsFreeBlock = false → d.warmCodeAlloc + n ≤ d.coldCodeAlloc) :
    ∃ cold e, d.allocateCold alignment warm warmIsFreeBlock n coldIsFreeBlock = (some cold, e) ∧
      alignment ∣ cold.base ∧ n ≤ cold.size ∧ d.warmCodeAlloc ≤ cold.base ∧
      (∀ b ∈ live, cold.Apart b) ∧ e.warmCodeAlloc = d.warmCodeAlloc ∧
      e.warmCodeAlloc ≤ e.coldCodeAlloc ∧ alignment ∣ e.coldCodeAlloc := by
  have hgap : ∀ b : Extent, c.warmCodeAlloc ≤ b.base → b.top ≤ c.coldCodeAlloc →
      ∀ b' ∈ live, b.Apart b' := fun b hlo hhi b' hb' =>
    ((h.live_side b' hb').apart_of_gap hlo hhi).symm
  have hdvd := h.cold_dvd
  unfold CodeCache.allocateCold
  cases coldIsFreeBlock with
  | true =>
    obtain ⟨hne, hle⟩ := hfree rfl
    have hlargest : n ≤ largestSize (d.freeBlockList.filter (d.eligible true)) := by
      rw [hcolds, ← h.free.largest true]
      exact hle
    obtain ⟨best, hbest, e, hsize, hfind, hwarm, hcold', -, -⟩ :=
      findFreeBlock_found (Nat.pos_of_ne_zero hne) hlargest
    rw [hcolds] at hbest
    obtain ⟨hmem, hside⟩ := List.mem_filter.1 hbest
    obtain ⟨htaken, hwithin, -⟩ := takenFrom_spec hsize
    have hbase := (eligible_iff h.free.border (h.free.free_side best hmem)
      (h.free.ordered.size_pos best hmem)).1 hside
    rw [if_pos rfl] at hbase
    rw [if_pos rfl]
    refine ⟨_, e, hfind, h.free_dvd best hmem, htaken, ?_, fun b hb => ?_, hwarm, ?_, ?_⟩
    · exact (hborder.trans hcold.le).trans hbase
    · exact (h.free_live best hmem b hb).mono hwithin b.within_refl
    · rw [hwarm, hcold']
      exact hborder
    · rw [hcold', hcold]
      exact hdvd
  | false =>
    rw [if_neg (by decide)]
    by_cases hzero : n = 0
    · subst hzero
      rw [if_neg (by simp)]
      refine ⟨_, d, rfl, hcold ▸ hdvd, le_rfl, hborder, hgap _ ?_ hcold.le, rfl, hborder,
        hcold ▸ hdvd⟩
      exact hlo.trans hborder
    · have hfits := hroom hzero rfl
      have haligned : alignment ∣ d.coldCodeAlloc - n := Nat.dvd_sub (hcold ▸ hdvd) hn
      rw [if_pos hzero]
      simp only [roundDown_of_dvd haligned]
      rw [if_neg (by omega)]
      refine ⟨_, _, rfl, haligned, le_rfl, by dsimp only; omega, hgap _ ?_ ?_, rfl, ?_, haligned⟩
      · dsimp only
        omega
      · simp only [Extent.top]
        omega
      · dsimp only
        omega

/-- If an allocation fails, nothing has changed; if it succeeds, the blocks are aligned, of their
sizes, apart from each other and from the blocks in use, and the borders are aligned and have
not crossed. -/
theorem allocateCodeMemory_allOrNothing (alignment : ℕ) (c : CodeCache) (live : List Extent)
    (h : Aligned alignment c live) (ha : 0 < alignment) (freeSpace : ℤ)
    (warmCodeSize coldCodeSize : ℕ) (needsToBeContiguous isMethodHeaderNeeded : Bool)
    (hwrap : warmCodeSize + coldCodeSize + 2 * (headerBytes isMethodHeaderNeeded + alignment) ≤
      2 ^ 64) :
    let sizes := performSizeAdjustments alignment warmCodeSize coldCodeSize needsToBeContiguous
      isMethodHeaderNeeded
    let result := c.allocateInRepository alignment freeSpace warmCodeSize coldCodeSize
      needsToBeContiguous isMethodHeaderNeeded
    (result.1 = none → result.2 = (c, freeSpace)) ∧
    ∀ warm cold, result.1 = some (warm, cold) →
      (alignment ∣ warm.base ∧ alignment ∣ cold.base) ∧
      (sizes.1 ≤ warm.size ∧ sizes.2 ≤ cold.size) ∧
      Disjoint warm.bytes cold.bytes ∧
      (∀ b ∈ live, Disjoint warm.bytes b.bytes ∧ Disjoint cold.bytes b.bytes) ∧
      alignment ∣ result.2.1.warmCodeAlloc ∧ alignment ∣ result.2.1.coldCodeAlloc ∧
      result.2.1.warmCodeAlloc ≤ result.2.1.coldCodeAlloc := by
  unfold allocateInRepository
  generalize hsizes : performSizeAdjustments alignment warmCodeSize coldCodeSize
    needsToBeContiguous isMethodHeaderNeeded = sizes
  obtain ⟨hwarmDvd, hcoldDvd, hsum⟩ :=
    performSizeAdjustments_aligned ha hwrap needsToBeContiguous hsizes
  dsimp only
  generalize hw : decide (needsToBeContiguous = false ∧ sizes.1 ≠ 0 ∧
    c.sizeOfLargestFreeWarmBlock ≥ sizes.1) = warmIsFreeBlock
  generalize hk : decide (needsToBeContiguous = false ∧ sizes.2 ≠ 0 ∧
    c.sizeOfLargestFreeColdBlock ≥ sizes.2) = coldIsFreeBlock
  have hwarmFree : warmIsFreeBlock = true →
      sizes.1 ≠ 0 ∧ c.sizeOfLargestFreeWarmBlock ≥ sizes.1 := by
    rintro rfl
    exact (of_decide_eq_true hw).2
  have hcoldFree : coldIsFreeBlock = true →
      sizes.2 ≠ 0 ∧ c.sizeOfLargestFreeColdBlock ≥ sizes.2 := by
    rintro rfl
    exact (of_decide_eq_true hk).2
  have hfresh : (if warmIsFreeBlock = true then 0 else sizes.1) ≤ sizes.1 := by
    split_ifs <;> omega
  have hmoving : ∀ d : CodeCache,
      d.warmCodeAlloc = c.warmCodeAlloc + (if warmIsFreeBlock = true then 0 else sizes.1) →
      alignment ∣ d.warmCodeAlloc := by
    intro d hd
    rw [hd]
    refine Nat.dvd_add h.warm_dvd ?_
    split_ifs
    · exact Nat.dvd_zero _
    · exact hwarmDvd
  have hwarmRun := h.allocateWarm ha hwarmDvd hwarmFree
  revert hfresh hmoving hwarmRun
  generalize (if warmIsFreeBlock = true then 0 else sizes.1) = fresh
  intro hfresh hmoving hwarmRun
  rw [Nat.mod_eq_of_lt (by omega)]
  by_cases hcheck : sizes.2 ≠ 0 ∧ coldIsFreeBlock = false ∧
      sizes.2 + fresh > c.coldCodeAlloc - c.warmCodeAlloc
  · rw [if_pos hcheck]
    exact ⟨fun _ => rfl, fun _ _ hsome => by cases hsome⟩
  · rw [if_neg hcheck]
    rcases hwarmRun with hfail |
      ⟨warm, d, hwarm, hbase, hsize, htop, hlive, hmoved, hborder, hcold, -, hcolds⟩
    · rw [hfail]
      exact ⟨fun _ => rfl, fun _ _ hsome => by cases hsome⟩
    · have hroom : sizes.2 ≠ 0 → coldIsFreeBlock = false →
          d.warmCodeAlloc + sizes.2 ≤ d.coldCodeAlloc := by
        intro hne hnot
        have hgap : ¬ sizes.2 + fresh > c.coldCodeAlloc - c.warmCodeAlloc :=
          fun hgt => hcheck ⟨hne, hnot, hgt⟩
        have := h.free.border
        omega
      obtain ⟨cold, e, hcoldRun, hbase', hsize', hlo, hlive', hwarmEq, hborder', hdvd⟩ :=
        h.allocateCold warm warmIsFreeBlock hcoldDvd (by omega) hborder hcold hcolds hcoldFree
          hroom
      rw [hwarm]
      dsimp only
      rw [hcoldRun]
      refine ⟨fun hnone => (Option.some_ne_none _ hnone).elim, fun warm' cold' hsome => ?_⟩
      obtain ⟨rfl, rfl⟩ := Prod.mk.inj (Option.some.inj hsome)
      refine ⟨⟨hbase, hbase'⟩, ⟨hsize, hsize'⟩, Extent.Apart.disjoint (.inl (htop.trans hlo)),
        fun b hb => ⟨(hlive b hb).disjoint, (hlive' b hb).disjoint⟩,
        hmoving e (hwarmEq.trans hmoved), hdvd, hborder'⟩

/-- A method that is freed leaves a block for the next warm part, whose cold part comes from the
gap. -/
theorem allocateCodeMemory_allOrNothing_freed :
    let s := step 32 (step 32 (step 32 ⟨initializeCache 32 4096 8192, []⟩
      (.allocate 200 100 false)) (.allocate 40 0 false)) (.free ⟨4128, 224⟩)
    let result := s.cache.allocateInRepository 32 10000 100 50 false true
    result.1 = some (⟨4128, 128⟩, ⟨7968, 96⟩) ∧
      ∀ b ∈ s.live, Disjoint (Extent.bytes ⟨4128, 128⟩) b.bytes := by
  intro s result
  have hreach : Reaches 32 s :=
    .step (.step (.step (.initialized (by decide)) (by unfold Op.Permitted NoWrap; decide))
      (by unfold Op.Permitted NoWrap; decide)) (by unfold Op.Permitted; decide)
  have haligned : Aligned 32 s.cache s.live :=
    (hreach.inv (by decide)).aligned (by decide +kernel) (by decide +kernel) (by decide +kernel)
  have hrun : result.1 = some (⟨4128, 128⟩, ⟨7968, 96⟩) := by decide +kernel
  obtain ⟨-, hsome⟩ := allocateCodeMemory_allOrNothing 32 s.cache s.live haligned (by decide) 10000
    100 50 false true (by decide)
  obtain ⟨-, -, -, hlive, -⟩ := hsome _ _ hrun
  exact ⟨hrun, fun b hb => (hlive b hb).1⟩

end Allocate

end OMR.Compiler.CodeCache
