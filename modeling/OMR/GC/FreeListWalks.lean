import OMR.GC.FreeHeaders

/-!
# Walks over the free list

Two walks over the headers of a free list: `recalculateMemoryPoolStatistics`, which moves on
before it has read all it needs of an entry, and `releaseFreeEntryMemoryPages`, which decommits the
pages of the entries. Sizes and addresses of the second one are machine words.
-/

namespace OMR.GC

open OMR.Lib

/-- What `recalculateMemoryPoolStatistics` computes, with the sizes it has given to
`incrementFreeEntrySizeClassStats`. -/
structure PoolStatistics where
  largestFreeEntry : ℕ
  freeBytes : ℕ
  freeEntryCount : ℕ
  sizeClassStats : List ℕ
deriving DecidableEq

/-- `recalculateMemoryPoolStatistics`, with enough fuel for the entries of the list. -/
def recalculateMemoryPoolStatistics (m : Headers) :
    ℕ → Option ℕ → PoolStatistics → Option PoolStatistics
  | 0, _, _ => none
  | _ + 1, none, s => some s
  | fuel + 1, some freeHeader, s => (m freeHeader).bind fun header =>
    let freeHeader := header.next
    -- the size that is recorded is read after the walk has moved on
    (freeHeader.bind m).bind fun following =>
      recalculateMemoryPoolStatistics m fuel freeHeader
        { largestFreeEntry := if header.size > s.largestFreeEntry then header.size
            else s.largestFreeEntry
          freeBytes := s.freeBytes + header.size
          freeEntryCount := s.freeEntryCount + 1
          sizeClassStats := s.sizeClassStats ++ [following.size] }

/-- The statistics are those of the entries of a list, each of which is recorded once. -/
structure PoolStatistics.Of (s : PoolStatistics) (l : List Extent) : Prop where
  freeBytes_eq : s.freeBytes = totalSize l
  freeEntryCount_eq : s.freeEntryCount = l.length
  largestFreeEntry_eq : s.largestFreeEntry = largestSize l
  sizeClassStats_perm : s.sizeClassStats.Perm (l.map Extent.size)

section Statistics

variable {m : Headers} {l : List Extent} {e : Extent} {fuel : ℕ}

/-- At the last entry the walk reads a field of `NULL`. -/
theorem recalculateMemoryPoolStatistics_cons (h : Linked m none (e :: l)) (s : PoolStatistics) :
    recalculateMemoryPoolStatistics m fuel (some e.base) s = none := by
  induction l generalizing e fuel s with
  | nil =>
    cases fuel with
    | zero => rfl
    | succ fuel =>
      rw [recalculateMemoryPoolStatistics, h.1]
      rfl
  | cons e' l ih =>
    cases fuel with
    | zero => rfl
    | succ fuel =>
      rw [recalculateMemoryPoolStatistics, h.1, Option.bind_some]
      change ((m e'.base).bind fun following => _) = none
      rw [h.2.1, Option.bind_some]
      exact ih h.2 _

/-- The statistics of a free list are recalculated iff there is no entry on it. -/
theorem recalculateMemoryPoolStatistics_iff (h : Linked m none l) (hfuel : l.length < fuel) :
    (∃ s, recalculateMemoryPoolStatistics m fuel (firstOf none l) ⟨0, 0, 0, []⟩ = some s ∧
      s.Of l) ↔ l = [] := by
  constructor
  · rintro ⟨s, hrun, -⟩
    cases l with
    | nil => rfl
    | cons e l =>
      rw [firstOf_cons, recalculateMemoryPoolStatistics_cons h] at hrun
      cases hrun
  · rintro rfl
    obtain ⟨fuel, rfl⟩ : ∃ n, fuel = n + 1 := ⟨fuel - 1, by
      rw [List.length_nil] at hfuel
      omega⟩
    exact ⟨⟨0, 0, 0, []⟩, rfl, rfl, rfl, rfl, List.Perm.refl _⟩

/-- Headers of two free entries, at 1024 and at 4096. -/
def twoEntries : Headers := fun a =>
  if a = 1024 then some ⟨some 4096, 512⟩ else if a = 4096 then some ⟨none, 768⟩ else none

theorem twoEntries_linked : Linked twoEntries none [⟨1024, 512⟩, ⟨4096, 768⟩] := ⟨rfl, rfl, trivial⟩

theorem recalculateMemoryPoolStatistics_iff_twoEntries :
    (∃ s, recalculateMemoryPoolStatistics twoEntries 3 (some 1024) ⟨0, 0, 0, []⟩ = some s ∧
      s.Of [⟨1024, 512⟩, ⟨4096, 768⟩]) ↔ [(⟨1024, 512⟩ : Extent), ⟨4096, 768⟩] = [] :=
  recalculateMemoryPoolStatistics_iff twoEntries_linked (by decide)

/-- However far it is followed, the walk over these entries does not finish. -/
theorem recalculateMemoryPoolStatistics_reads_null :
    Linked twoEntries none [⟨1024, 512⟩, ⟨4096, 768⟩] ∧
      ∀ fuel, recalculateMemoryPoolStatistics twoEntries fuel (some 1024) ⟨0, 0, 0, []⟩ = none :=
  ⟨twoEntries_linked, fun _ => recalculateMemoryPoolStatistics_cons twoEntries_linked _⟩

end Statistics

-- Decommitting pages

/-- Arithmetic of `uintptr_t`. -/
def uintptr (n : ℕ) : ℕ := n % 2 ^ 64

/-- Subtraction of `uintptr_t`. -/
def subUintptr (m n : ℕ) : ℕ := uintptr (m + 2 ^ 64 - n)

/-- `MM_Math::roundToCeiling`. -/
def roundToCeiling (granularity number : ℕ) : ℕ :=
  uintptr (number + if number % granularity ≠ 0 then granularity - number % granularity else 0)

/-- The first page boundary behind the header of an entry. -/
def pagesBase (pageSize : ℕ) (currentFreeEntry : Extent) : ℕ :=
  roundToCeiling pageSize (uintptr (currentFreeEntry.base + sizeofFreeHeader))

/-- The range that `releaseFreeEntryMemoryPages` passes to `decommitMemory` for an entry. -/
def decommitRange (pageSize idleMinimumFree : ℕ) (currentFreeEntry : Extent) : Option Extent :=
  if pageSize ≤ currentFreeEntry.size then
    let addressBase := pagesBase pageSize currentFreeEntry
    let totalFreePagesCount :=
      subUintptr currentFreeEntry.size (subUintptr addressBase currentFreeEntry.base) / pageSize
    if 0 < totalFreePagesCount then
      let commitPagesCount := if 0 < idleMinimumFree then
        uintptr (totalFreePagesCount * idleMinimumFree) / 100 else 0
      let decommitPagesCount := subUintptr totalFreePagesCount commitPagesCount
      let addressBase := uintptr (addressBase + uintptr (commitPagesCount * pageSize))
      if 0 < decommitPagesCount then some ⟨addressBase, uintptr (decommitPagesCount * pageSize)⟩
      else none
    else none
  else none

/-- `releaseFreeEntryMemoryPages`, with enough fuel for the entries: the ranges that it passes to
`decommitMemory`, which succeeds where `decommitMemory` says so, and the memory released. -/
def releaseFreeEntryMemoryPages (pageSize idleMinimumFree : ℕ) (decommitMemory : Extent → Bool)
    (m : Headers) : ℕ → Option ℕ → Option (List Extent × ℕ)
  | 0, _ => none
  | _ + 1, none => some ([], 0)
  | fuel + 1, some currentFreeEntry => (m currentFreeEntry).bind fun header =>
    (releaseFreeEntryMemoryPages pageSize idleMinimumFree decommitMemory m fuel header.next).map
      fun (passed, releasedMemory) =>
        match decommitRange pageSize idleMinimumFree ⟨currentFreeEntry, header.size⟩ with
        | none => (passed, releasedMemory)
        | some range => (range :: passed,
            if decommitMemory range then uintptr (releasedMemory + range.size) else releasedMemory)

/-- The page count of an entry does not underflow, and the range that is passed lies in the entry
behind its header and begins at a page. -/
structure DecommitsInside (pageSize idleMinimumFree : ℕ) (e : Extent) : Prop where
  no_underflow : pageSize ≤ e.size → subUintptr (pagesBase pageSize e) e.base ≤ e.size
  inside : ∀ range ∈ decommitRange pageSize idleMinimumFree e,
    e.base + sizeofFreeHeader ≤ range.base ∧ pageSize ∣ range.base ∧ range.top ≤ e.top

/-- An entry of at least one page that begins one pointer below a page boundary, and ends before
the next one. -/
def EndsBeforePage (pageSize : ℕ) (e : Extent) : Prop :=
  e.base % pageSize = pageSize - 8 ∧ pageSize ≤ e.size ∧ e.size < pageSize + 8

section Pages

variable {pageSize idle k fuel : ℕ} {e : Extent} {l : List Extent} {m : Headers}

/-- The first page boundary behind the header, without the bounds of a machine word. -/
def nextPage (pageSize number : ℕ) : ℕ :=
  number + if number % pageSize ≠ 0 then pageSize - number % pageSize else 0

theorem nextPage_spec (hpos : 0 < pageSize) (number : ℕ) :
    number ≤ nextPage pageSize number ∧ nextPage pageSize number < number + pageSize ∧
      pageSize ∣ nextPage pageSize number := by
  have hmod := Nat.mod_lt number hpos
  rw [nextPage]
  split
  · refine ⟨by omega, by omega, (Nat.dvd_iff_mod_eq_zero ..).2 ?_⟩
    have hdiv := Nat.div_add_mod number pageSize
    have hnext : number + (pageSize - number % pageSize) = pageSize * (number / pageSize + 1) := by
      rw [Nat.mul_add, Nat.mul_one]
      omega
    rw [hnext, Nat.mul_mod_right]
  · next h =>
    exact ⟨le_rfl, by omega, (Nat.dvd_iff_mod_eq_zero ..).2 (not_not.1 h)⟩

/-- The boundary lies in the entry unless it ends before a page. -/
theorem nextPage_le_iff (haligned : 8 ∣ e.base) (hsize : sizeofFreeHeader ≤ e.size)
    (hpage : 2 ^ k ≤ e.size) :
    nextPage (2 ^ k) (e.base + sizeofFreeHeader) ≤ e.top ↔ ¬EndsBeforePage (2 ^ k) e := by
  have htop : e.top = e.base + e.size := rfl
  have hpos : 0 < 2 ^ k := Nat.two_pow_pos k
  have hmod : (e.base + 16) % 2 ^ k = (e.base % 2 ^ k + 16) % 2 ^ k := (Nat.mod_add_mod ..).symm
  have hlt := Nat.mod_lt e.base hpos
  simp only [sizeofFreeHeader] at hsize ⊢
  rw [EndsBeforePage, nextPage, hmod, htop]
  rcases Nat.lt_or_ge k 3 with hk | hk
  · -- Pages of at most four bytes begin at every entry.
    have hsmall : 2 ^ k ∣ 8 := Nat.pow_dvd_pow 2 (show k ≤ 3 by omega)
    have hle : 2 ^ k ≤ 4 := Nat.pow_le_pow_right (by decide) (show k ≤ 2 by omega)
    have hzero : e.base % 2 ^ k = 0 := Nat.mod_eq_zero_of_dvd (hsmall.trans haligned)
    have hsixteen : 16 % 2 ^ k = 0 := Nat.mod_eq_zero_of_dvd (hsmall.trans (by decide))
    rw [hzero, Nat.zero_add, hsixteen]
    simp only [ne_eq, not_true_eq_false, if_false]
    omega
  · obtain ⟨c, hc⟩ : 8 ∣ 2 ^ k := Nat.pow_dvd_pow 2 hk
    obtain ⟨b, hb⟩ : 8 ∣ e.base % 2 ^ k := (Nat.dvd_mod_iff ⟨c, hc⟩).2 haligned
    generalize hr : e.base % 2 ^ k = r at *
    rcases Nat.lt_trichotomy (r + 16) (2 ^ k) with h | h | h
    · rw [Nat.mod_eq_of_lt h, if_pos (by omega)]
      omega
    · rw [h, Nat.mod_self]
      simp only [ne_eq, not_true_eq_false, if_false]
      omega
    · have hlast : r = 2 ^ k - 8 := by omega
      have hsum : r + 16 = 8 + 2 ^ k := by omega
      rw [hsum, Nat.add_mod_right]
      rcases Nat.lt_or_ge 8 (2 ^ k) with hlarge | hlarge
      · rw [Nat.mod_eq_of_lt hlarge, if_pos (by decide)]
        omega
      · have height : 2 ^ k = 8 := by omega
        rw [height]
        simp only [Nat.mod_self, ne_eq, not_true_eq_false, if_false]
        omega

theorem uintptr_eq {n : ℕ} (h : n < 2 ^ 64) : uintptr n = n := Nat.mod_eq_of_lt h

theorem subUintptr_eq {m n : ℕ} (hle : n ≤ m) (hm : m < 2 ^ 64) : subUintptr m n = m - n := by
  rw [subUintptr, uintptr]
  omega

/-- No more pages stay committed than there are. -/
theorem commitPages_le (total : ℕ) (hidle : idle ≤ 100) :
    (if 0 < idle then uintptr (total * idle) / 100 else 0) ≤ total := by
  split
  · calc uintptr (total * idle) / 100 ≤ total * idle / 100 := Nat.div_le_div_right (Nat.mod_le ..)
      _ ≤ total * 100 / 100 := Nat.div_le_div_right (Nat.mul_le_mul_left total hidle)
      _ = total := Nat.mul_div_cancel total (by decide)
  · exact Nat.zero_le total

/-- Pages that begin at the first boundary in an entry and are as many as fit lie in the entry. -/
theorem decommitRange_inside (hidle : idle ≤ 100) (htop : e.top < 2 ^ 64)
    (hle : nextPage (2 ^ k) (e.base + sizeofFreeHeader) ≤ e.top) {range : Extent}
    (hrange : range ∈ decommitRange (2 ^ k) idle e) :
    e.base + sizeofFreeHeader ≤ range.base ∧ 2 ^ k ∣ range.base ∧ range.top ≤ e.top := by
  have hpos : 0 < 2 ^ k := Nat.two_pow_pos k
  obtain ⟨hheader, -, hdvd⟩ := nextPage_spec hpos (e.base + sizeofFreeHeader)
  have hetop : e.top = e.base + e.size := rfl
  generalize hnext : nextPage (2 ^ k) (e.base + sizeofFreeHeader) = next at hle hheader hdvd
  have hbase : pagesBase (2 ^ k) e = next := by
    rw [pagesBase, uintptr_eq (by omega)]
    exact (uintptr_eq (by rw [← nextPage, hnext]; omega)).trans hnext
  have hrest : subUintptr e.size (subUintptr next e.base) = e.top - next := by
    rw [subUintptr_eq (show e.base ≤ next by omega) (by omega), subUintptr_eq (by omega) (by omega)]
    omega
  rw [decommitRange] at hrange
  dsimp only at hrange
  rw [hbase, hrest] at hrange
  split at hrange
  swap
  · cases hrange
  generalize htotal : (e.top - next) / 2 ^ k = total at hrange
  have hfit : total * 2 ^ k ≤ e.top - next := by
    rw [← htotal]
    exact Nat.div_mul_le_self _ _
  split at hrange
  swap
  · cases hrange
  have hcommit := commitPages_le total hidle
  generalize (if 0 < idle then uintptr (total * idle) / 100 else 0) = commit at hrange hcommit
  have htotalPages : total ≤ total * 2 ^ k := Nat.le_mul_of_pos_right total hpos
  have hsplit : total * 2 ^ k = commit * 2 ^ k + (total - commit) * 2 ^ k := by
    rw [← Nat.add_mul]
    congr 1
    omega
  rw [subUintptr_eq hcommit (by omega)] at hrange
  split at hrange
  swap
  · cases hrange
  cases hrange
  have hcommitWord : uintptr (commit * 2 ^ k) = commit * 2 ^ k := uintptr_eq (by omega)
  have hdecommitWord : uintptr ((total - commit) * 2 ^ k) = (total - commit) * 2 ^ k :=
    uintptr_eq (by omega)
  have hbaseWord : uintptr (next + commit * 2 ^ k) = next + commit * 2 ^ k := uintptr_eq (by omega)
  simp only [Extent.top, hcommitWord, hdecommitWord, hbaseWord]
  refine ⟨by omega, Nat.dvd_add hdvd (Nat.dvd_mul_left ..), ?_⟩
  rw [← hetop]
  omega

/-- An entry is treated as it should be iff it does not end before a page. -/
theorem decommitsInside_iff (hk : k < 64) (hidle : idle ≤ 100) (haligned : 8 ∣ e.base)
    (hsize : sizeofFreeHeader ≤ e.size) (htop : e.top < 2 ^ 64) :
    DecommitsInside (2 ^ k) idle e ↔ ¬EndsBeforePage (2 ^ k) e := by
  have hetop : e.top = e.base + e.size := rfl
  rcases Nat.lt_or_ge e.size (2 ^ k) with hsmall | hpage
  · refine iff_of_true ⟨fun h => absurd h (Nat.not_le.2 hsmall), fun range hrange => ?_⟩
      fun h => absurd h.2.1 (Nat.not_le.2 hsmall)
    rw [decommitRange, if_neg (Nat.not_le.2 hsmall)] at hrange
    cases hrange
  have hiff := nextPage_le_iff haligned hsize hpage
  obtain ⟨hheader, hclose, -⟩ := nextPage_spec (Nat.two_pow_pos k) (e.base + sizeofFreeHeader)
  have hpageBound : 2 ^ k ≤ 2 ^ 63 := Nat.pow_le_pow_right (by decide) (show k ≤ 63 by omega)
  have hunder : subUintptr (pagesBase (2 ^ k) e) e.base =
      nextPage (2 ^ k) (e.base + sizeofFreeHeader) - e.base := by
    have hbase : pagesBase (2 ^ k) e = uintptr (nextPage (2 ^ k) (e.base + sizeofFreeHeader)) := by
      rw [pagesBase, uintptr_eq (show e.base + sizeofFreeHeader < 2 ^ 64 by omega)]
      rfl
    rw [hbase, subUintptr, uintptr, uintptr]
    simp only [sizeofFreeHeader] at hsize hheader hclose ⊢
    omega
  rw [← hiff]
  constructor
  · intro h
    have := h.no_underflow hpage
    rw [hunder] at this
    omega
  · intro hle
    refine ⟨fun _ => ?_, fun range hrange => decommitRange_inside hidle htop hle hrange⟩
    rw [hunder]
    omega

/-- The walk passes on the range of every entry that has one. -/
theorem releaseFreeEntryMemoryPages_linked (pageSize idle : ℕ) (decommitMemory : Extent → Bool) (h : Linked m none l)
    (hfuel : l.length < fuel) :
    ∃ releasedMemory, releaseFreeEntryMemoryPages pageSize idle decommitMemory m fuel
      (firstOf none l) = some (l.filterMap (decommitRange pageSize idle), releasedMemory) := by
  obtain ⟨fuel, rfl⟩ : ∃ n, fuel = n + 1 := ⟨fuel - 1, by omega⟩
  induction l generalizing fuel with
  | nil => exact ⟨0, rfl⟩
  | cons e l ih =>
    rw [List.length_cons] at hfuel
    obtain ⟨fuel, rfl⟩ : ∃ n, fuel = n + 1 := ⟨fuel - 1, by omega⟩
    obtain ⟨releasedMemory, hrest⟩ := ih h.2 fuel (by omega)
    rw [firstOf_cons, releaseFreeEntryMemoryPages, h.1, Option.bind_some]
    dsimp only
    rw [hrest, Option.map_some]
    cases hrange : decommitRange pageSize idle e with
    | none =>
      rw [List.filterMap_cons_none hrange]
      exact ⟨releasedMemory, rfl⟩
    | some range =>
      rw [List.filterMap_cons_some hrange]
      exact ⟨_, rfl⟩

/-- All ranges that are passed lie in their entries, and no page count underflows, iff no entry of
at least one page begins a pointer below a page and ends before the next one. -/
theorem releaseFreeEntryMemoryPages_inside_iff (decommitMemory : Extent → Bool)
    (h : Linked m none l) (hfuel : l.length < fuel) (hk : k < 64) (hidle : idle ≤ 100)
    (haligned : ∀ e ∈ l, 8 ∣ e.base) (hsize : ∀ e ∈ l, sizeofFreeHeader ≤ e.size)
    (htop : ∀ e ∈ l, e.top < 2 ^ 64) :
    ∃ passed releasedMemory, releaseFreeEntryMemoryPages (2 ^ k) idle decommitMemory m fuel
        (firstOf none l) = some (passed, releasedMemory) ∧
      passed = l.filterMap (decommitRange (2 ^ k) idle) ∧
      ((∀ e ∈ l, DecommitsInside (2 ^ k) idle e) ↔ ∀ e ∈ l, ¬EndsBeforePage (2 ^ k) e) := by
  obtain ⟨releasedMemory, hrun⟩ := releaseFreeEntryMemoryPages_linked (2 ^ k) idle decommitMemory h
    hfuel
  exact ⟨_, releasedMemory, hrun, rfl, forall₂_congr fun e he =>
    decommitsInside_iff hk hidle (haligned e he) (hsize e he) (htop e he)⟩

theorem releaseFreeEntryMemoryPages_inside_iff_twoEntries :
    ∃ passed releasedMemory, releaseFreeEntryMemoryPages (2 ^ 8) 10 (fun _ => true) twoEntries 3
        (some 1024) = some (passed, releasedMemory) ∧
      passed = [(⟨1024, 512⟩ : Extent), ⟨4096, 768⟩].filterMap (decommitRange (2 ^ 8) 10) ∧
      ((∀ e ∈ [(⟨1024, 512⟩ : Extent), ⟨4096, 768⟩], DecommitsInside (2 ^ 8) 10 e) ↔
        ∀ e ∈ [(⟨1024, 512⟩ : Extent), ⟨4096, 768⟩], ¬EndsBeforePage (2 ^ 8) e) :=
  releaseFreeEntryMemoryPages_inside_iff (fun _ => true) twoEntries_linked (by decide) (by decide)
    (by decide) (by decide) (by decide) (by decide)

/-- The header of a free entry of one page at 8184. -/
def entryBelowPage : Headers := fun a => if a = 8184 then some ⟨none, 4096⟩ else none

/-- Of this entry, which ends at 12280, nearly the whole address space from 12288 on is
decommitted. -/
theorem releaseFreeEntryMemoryPages_leaves_entry :
    Linked entryBelowPage none [⟨8184, 4096⟩] ∧
      releaseFreeEntryMemoryPages 4096 0 (fun _ => true) entryBelowPage 2 (some 8184) =
        some ([⟨12288, 2 ^ 64 - 4096⟩], 2 ^ 64 - 4096) ∧
      (⟨8184, 4096⟩ : Extent).top = 12280 :=
  ⟨⟨rfl, trivial⟩, by decide +kernel, by decide⟩

end Pages

end OMR.GC
