import OMR.GC.RangeParts
import OMR.GC.RemoveFreeEntries

/-!
# The removal of a range conserves memory

On the headers, `removeFreeEntriesWithinRange` does to a linked free list what the model on lists
of entries says; and there each entry is taken apart into what stays, what is returned and what is
abandoned.
-/

namespace OMR.GC

open OMR.Lib

variable {lp : LinkedPool} {p : Pool} {low high minimumSize fuel : ℕ}

/-- The bytes that are kept on one side of the range. -/
theorem totalSize_outside (p : Pool) (outside : Prop) [Decidable outside] (a b : ℕ) :
    (totalSize (if outside then p.createFreeEntry a b else none).toList =
      if (if outside then p.createFreeEntry a b else none).isSome then b - a else 0) ∧
    totalSize (if outside then p.createFreeEntry a b else none).toList ≤
      if outside then b - a else 0 := by
  split
  · have hsize := Pool.totalSize_freeEntryIn p.minimumFreeEntrySize a b
    refine ⟨hsize, hsize.trans_le ?_⟩
    split
    · exact le_rfl
    · exact Nat.zero_le _
  · exact ⟨rfl, le_rfl⟩

/-- The removal on the headers does what the removal on the list does. -/
theorem LinkedPool.removeFreeEntriesWithinRange_refines (minimumSize : ℕ) (hrep : lp.Represents p)
    (hlt : low < high) (hfuel : p.heapFreeList.length < fuel) :
    let after := p.removeFreeEntriesWithinRange low high minimumSize
    ∃ (lp' : LinkedPool) (ret : RetList),
      lp.removeFreeEntriesWithinRange fuel low high minimumSize = some (lp', after.2.found, ret) ∧
        lp'.Represents after.1 ∧ ret.Lists lp'.headers after.2.retList ∧
        (after.2.found = false → lp' = lp) := by
  intro after
  have hafter : after = p.removeFreeEntriesWithinRange low high minimumSize := rfl
  have hord := hrep.lists.ordered
  have hparts := p.removeFreeEntriesWithinRange_parts minimumSize hord hlt
  have hkeptOrd : AddressOrdered after.1.heapFreeList := by
    rw [hparts.1]
    exact (rangeRemoved_parts p.minimumFreeEntrySize minimumSize hord hlt).kept_ordered
  have hsize : ∀ e ∈ after.1.heapFreeList, sizeofFreeHeader ≤ e.size := by
    intro e he
    rw [hafter, hparts.1] at he
    obtain ⟨x, hx, he⟩ := List.mem_flatMap.1 he
    rw [keptOf] at he
    split at he
    · rcases List.mem_append.1 he with he | he
      all_goals
        obtain ⟨rfl, hfits⟩ := freeEntryIn_eq (Option.mem_toList.1 he)
        exact hfits
    · cases List.mem_singleton.1 he
      exact hrep.lists.size_le _ hx
  have hfound := findInRange_spec low hrep.lists.linked hfuel []
  rw [List.nil_append] at hfound
  rw [Pool.removeFreeEntriesWithinRange] at hafter
  dsimp only at hafter
  have hsplit := (List.takeWhile_append_dropWhile
    (p := fun e : Extent => decide ¬(low ≤ e.base ∨ low < e.top)) (l := p.heapFreeList)).symm
  generalize p.heapFreeList.takeWhile (fun e => decide ¬(low ≤ e.base ∨ low < e.top)) =
    previous at hsplit hfound hafter
  have hnothing : after = (p, ⟨false, [], 0, 0⟩) → lp.removeFreeEntriesWithinRange fuel low high
      minimumSize = some (lp, false, ⟨none, none, 0, 0⟩) → ∃ (lp' : LinkedPool) (ret : RetList),
        lp.removeFreeEntriesWithinRange fuel low high minimumSize = some (lp', after.2.found, ret) ∧
          lp'.Represents after.1 ∧ ret.Lists lp'.headers after.2.retList ∧
          (after.2.found = false → lp' = lp) := by
    intro heq hrun
    rw [heq]
    exact ⟨lp, ⟨none, none, 0, 0⟩, hrun, hrep, ⟨trivial, rfl, rfl, rfl, rfl⟩, fun _ => rfl⟩
  cases hrest : p.heapFreeList.dropWhile fun e => decide ¬(low ≤ e.base ∨ low < e.top) with
  | nil =>
    rw [hrest] at hafter hfound
    refine hnothing hafter ?_
    rw [removeFreeEntriesWithinRange, hrep.lists.head_eq]
    change (findInRange _ _ _ (lastOf []) _).bind _ = _
    rw [hfound]
    rfl
  | cons current next =>
    rw [hrest] at hafter hfound hsplit
    dsimp only at hafter
    have hinside : low ≤ current.base ∨ low < current.top := by
      have := not_of_dropWhile_eq_cons hrest
      simpa only [decide_eq_false_iff_not, not_not] using this
    have hlinked := hrep.lists.linked
    rw [hsplit] at hlinked hord
    have hheader := (Linked.append_iff.1 hlinked).2.1
    have hrun : lp.removeFreeEntriesWithinRange fuel low high minimumSize =
        if high ≤ current.base then some (lp, false, ⟨none, none, 0, 0⟩)
        else (Removing.cut lp.minimumFreeEntrySize low high minimumSize fuel current.base
          ⟨firstOf none next, current.size⟩ ⟨lp.headers, lp.heapFreeList, lastOf previous,
            ⟨none, none, 0, 0⟩, 0, 0⟩).map fun s =>
              ({ lp with
                headers := s.headers
                heapFreeList := s.heapFreeList
                freeMemorySize := lp.freeMemorySize - s.removeSize
                freeEntryCount := lp.freeEntryCount - s.removeCount }, true, s.ret) := by
      rw [removeFreeEntriesWithinRange]
      nth_rewrite 1 [hrep.lists.head_eq]
      change (findInRange _ _ _ (lastOf []) _).bind _ = _
      rw [hfound, Option.bind_some, firstOf_cons]
      change (if _ then _ else (lp.headers current.base).bind _) = _
      rw [hheader, Option.bind_some]
    by_cases hhigh : high ≤ current.base
    · rw [if_pos hhigh] at hafter hrun
      exact hnothing hafter hrun
    rw [if_neg hhigh] at hafter hrun
    have hlength : next.length < fuel := by
      rw [hsplit, List.length_append, List.length_cons] at hfuel
      omega
    obtain ⟨s, hcut, hlist, hret, hhead, hretEq, hremoved, hcount⟩ := Removing.cut_spec p minimumSize
      hlinked (hrep.lists.head_eq.trans (by rw [← hsplit])) hord
      (by rw [← hsplit]; exact hrep.lists.size_le) hlt hinside (Nat.lt_of_not_le hhigh) hlength
    rw [hrep.minimum_eq, hcut, Option.map_some] at hrun
    rw [hafter] at hsize hkeptOrd ⊢
    refine ⟨_, _, hrun, ⟨⟨hlist, hhead, hkeptOrd, hsize⟩, rfl, ?_, ?_⟩, ⟨hret, ?_, ?_, ?_, ?_⟩,
      fun h => Bool.noConfusion h⟩
    · have hleading := totalSize_outside p (current.base < low) current.base low
      have htrailing := totalSize_outside p (high < current.top) high current.top
      have htop : current.top = current.base + current.size := rfl
      dsimp only
      rw [hrep.freeMemorySize_eq, hremoved, ← hleading.1, ← htrailing.1]
      have hfits : totalSize (if current.base < low then p.createFreeEntry current.base low
          else none).toList + totalSize (if high < current.top then
            p.createFreeEntry high current.top else none).toList ≤ current.size := by
        refine (Nat.add_le_add hleading.2 htrailing.2).trans ?_
        split
        all_goals
          split
          all_goals omega
      push_cast [Nat.cast_sub (Nat.le_of_add_right_le hfits), Nat.cast_sub (Nat.le_sub_of_add_le' hfits)]
      rfl
    · dsimp only
      rw [hrep.freeEntryCount_eq, hcount]
    · rw [hretEq]
    · rw [hretEq]
    · rw [hretEq]
    · rw [hretEq]

/-- After the removal of a range the pool and the list that is returned hold every byte that was
free before, but for abandoned fragments smaller than the bounds; the counters follow, and a range
without free bytes changes nothing. -/
def LinkedPool.ConservesRange (lp : LinkedPool) (l : List Extent)
    (fuel low high minimumSize outsideMinimum insideMinimum : ℕ) : Prop :=
  ∃ (lp' : LinkedPool) (found : Bool) (ret : RetList) (kept returned outside inside : List Extent),
    lp.removeFreeEntriesWithinRange fuel low high minimumSize = some (lp', found, ret) ∧
    lp'.Lists kept ∧ ret.Lists lp'.headers returned ∧
    RangeRemoved minimumSize low high outsideMinimum insideMinimum l kept returned outside inside ∧
    lp'.freeMemorySize = lp.freeMemorySize - totalSize l + totalSize kept ∧
    lp'.freeEntryCount = lp.freeEntryCount - l.length + kept.length ∧
    (found = true ↔ ∃ e ∈ l, Touches low high e) ∧ (found = false → lp' = lp)

/-- A fragment is abandoned where it is smaller than the minimum of its side, or than a header. -/
theorem LinkedPool.removeFreeEntriesWithinRange_conserves {l : List Extent} (minimumSize : ℕ)
    (hlists : lp.Lists l) (hlt : low < high) (hfuel : l.length < fuel) :
    lp.ConservesRange l fuel low high minimumSize (max lp.minimumFreeEntrySize sizeofFreeHeader)
      (max minimumSize sizeofFreeHeader) := by
  let p : Pool := ⟨lp.minimumFreeEntrySize, l, lp.freeMemorySize, lp.freeEntryCount, 0,
    HintCache.initHints, 0, 0, 0, 0⟩
  have hrep : lp.Represents p := ⟨hlists, rfl, rfl, rfl⟩
  obtain ⟨lp', ret, hrun, hrep', hret, hsame⟩ :=
    removeFreeEntriesWithinRange_refines minimumSize hrep hlt hfuel
  obtain ⟨hkept, hreturned, -, -, hfound, hmemory, hcount, -⟩ :=
    p.removeFreeEntriesWithinRange_parts minimumSize hlists.ordered hlt
  have hparts := rangeRemoved_parts lp.minimumFreeEntrySize minimumSize hlists.ordered hlt
  have hlisted : p.heapFreeList = l := rfl
  rw [← hlisted, ← hkept, ← hreturned, hlisted] at hparts
  refine ⟨lp', _, ret, _, _, _, _, hrun, hrep'.lists, hret, hparts, ?_, ?_, hfound, hsame⟩
  · rw [hrep'.freeMemorySize_eq, hmemory]
  · rw [hrep'.freeEntryCount_eq, hcount]

/-- A pool with one entry. -/
def LinkedPool.oneEntry (minimumFreeEntrySize : ℕ) : LinkedPool where
  minimumFreeEntrySize := minimumFreeEntrySize
  headers := fun a => if a = 1024 then some ⟨none, 1024⟩ else none
  heapFreeList := some 1024
  freeMemorySize := 1024
  freeEntryCount := 1

theorem LinkedPool.oneEntry_lists (minimumFreeEntrySize : ℕ) :
    (oneEntry minimumFreeEntrySize).Lists [⟨1024, 1024⟩] :=
  ⟨⟨rfl, trivial⟩, rfl, by decide, by decide⟩

theorem LinkedPool.conservesRange_oneEntry :
    (oneEntry 512).ConservesRange [⟨1024, 1024⟩] 2 1100 1500 256 512 256 :=
  removeFreeEntriesWithinRange_conserves 256 (oneEntry_lists 512) (by decide) (by decide)

/-- A range of eight bytes is free before, and neither free nor returned afterwards; nor are eight
bytes next to the range that remain of an entry. -/
theorem LinkedPool.not_conservesRange_small :
    ¬(oneEntry 512).ConservesRange [⟨1024, 1024⟩] 2 1024 1032 8 512 8 ∧
      ¬(oneEntry 8).ConservesRange [⟨1024, 1024⟩] 2 1032 2048 512 8 512 := by
  have hfree : 1024 ∈ bytesOf [(⟨1024, 1024⟩ : Extent)] := ⟨_, List.mem_singleton_self _,
    Extent.mem_bytes.2 (by decide)⟩
  have hnil : ∀ {l : List Extent}, none = firstOf none l → l = [] := by
    intro l h
    cases l with
    | nil => rfl
    | cons e l => cases h
  constructor
  · rintro ⟨lp', found, ret, kept, returned, outside, inside, hrun, -, hret, hparts, -⟩
    have hhead : ((oneEntry 512).removeFreeEntriesWithinRange 2 1024 1032 8).map
        (fun r => r.2.2.head) = some none := by decide +kernel
    rw [hrun, Option.map_some] at hhead
    obtain rfl := hnil ((Option.some_inj.1 hhead).symm.trans hret.head_eq)
    rw [hparts.bytes_eq] at hfree
    rcases hfree with (⟨e, he, hbyte⟩ | ⟨e, he, -⟩) | ⟨f, hf, hbyte⟩ | ⟨f, hf, hbyte⟩
    · have := hparts.kept_outside e he
      rw [Extent.mem_bytes] at hbyte
      omega
    · cases he
    · obtain ⟨-, e, he, hends⟩ := hparts.outside_small f hf
      rw [Extent.mem_bytes] at hbyte
      omega
    · obtain ⟨hsmall, e, he, hbase, htop⟩ := hparts.inside_small f hf
      cases List.mem_singleton.1 he
      simp only [Extent.top] at hbase htop
      omega
  · rintro ⟨lp', found, ret, kept, returned, outside, inside, hrun, hkept, -, hparts, -⟩
    have hhead : ((oneEntry 8).removeFreeEntriesWithinRange 2 1032 2048 512).map
        (fun r => r.1.heapFreeList) = some none := by decide +kernel
    rw [hrun, Option.map_some] at hhead
    obtain rfl := hnil ((Option.some_inj.1 hhead).symm.trans hkept.head_eq)
    rw [hparts.bytes_eq] at hfree
    rcases hfree with (⟨e, he, -⟩ | ⟨e, he, hbyte⟩) | ⟨f, hf, hbyte⟩ | ⟨f, hf, hbyte⟩
    · cases he
    · have := hparts.returned_inside e he
      rw [Extent.mem_bytes] at hbyte
      omega
    · obtain ⟨hsmall, e, he, hends⟩ := hparts.outside_small f hf
      cases List.mem_singleton.1 he
      rw [Extent.mem_bytes] at hbyte
      simp only [Extent.top] at hends hbyte
      omega
    · obtain ⟨-, e, he, hbase, -⟩ := hparts.inside_small f hf
      rw [Extent.mem_bytes] at hbyte
      omega

end OMR.GC
