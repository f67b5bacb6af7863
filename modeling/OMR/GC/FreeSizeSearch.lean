import OMR.GC.RemovalConservation

/-!
# `findAddressAfterFreeSize`

The search for the address up to which the free entries supply a given number of bytes, and what
the removal of the range up to that address returns.
-/

namespace OMR.GC

open OMR.Lib

/-- The walk of `findAddressAfterFreeSize` with `remainingBytesNeeded`. -/
def addressAfterFreeSize (minimumFreeEntrySize minimumSize : ℕ) : ℕ → List Extent → Option ℕ
  | _, [] => none
  | remainingBytesNeeded, currentFreeEntry :: rest =>
    let remainingBytesNeeded := if remainingBytesNeeded < minimumSize then minimumSize
      else remainingBytesNeeded
    if currentFreeEntry.size ≤ remainingBytesNeeded then
      if minimumSize ≤ currentFreeEntry.size then
        if remainingBytesNeeded - currentFreeEntry.size = 0 then some currentFreeEntry.top
        else addressAfterFreeSize minimumFreeEntrySize minimumSize
          (remainingBytesNeeded - currentFreeEntry.size) rest
      else addressAfterFreeSize minimumFreeEntrySize minimumSize remainingBytesNeeded rest
    else if currentFreeEntry.size - remainingBytesNeeded < minimumFreeEntrySize then
      some currentFreeEntry.top
    else some (currentFreeEntry.base + remainingBytesNeeded)

/-- The walk over the headers. -/
def findAfterFreeSize (minimumFreeEntrySize minimumSize : ℕ) (m : Headers) :
    ℕ → Option ℕ → ℕ → Option (Option ℕ)
  | 0, _, _ => none
  | _ + 1, none, _ => some none
  | fuel + 1, some currentFreeEntry, remainingBytesNeeded => (m currentFreeEntry).bind fun header =>
    let remainingBytesNeeded := if remainingBytesNeeded < minimumSize then minimumSize
      else remainingBytesNeeded
    if header.size ≤ remainingBytesNeeded then
      if minimumSize ≤ header.size then
        if remainingBytesNeeded - header.size = 0 then some (some (currentFreeEntry + header.size))
        else findAfterFreeSize minimumFreeEntrySize minimumSize m fuel header.next
          (remainingBytesNeeded - header.size)
      else findAfterFreeSize minimumFreeEntrySize minimumSize m fuel header.next
        remainingBytesNeeded
    else if header.size - remainingBytesNeeded < minimumFreeEntrySize then
      some (some (currentFreeEntry + header.size))
    else some (some (currentFreeEntry + remainingBytesNeeded))

/-- `findAddressAfterFreeSize`, with enough fuel for the entries of the list. -/
def LinkedPool.findAddressAfterFreeSize (fuel : ℕ) (p : LinkedPool)
    (sizeRequired minimumSize : ℕ) : Option (Option ℕ) :=
  findAfterFreeSize p.minimumFreeEntrySize minimumSize p.headers fuel p.heapFreeList sizeRequired

section Search

variable {minimum minimumSize remaining fuel address low : ℕ} {l : List Extent} {m : Headers}

/-- The walk over the headers is the walk over the entries. -/
theorem findAfterFreeSize_linked (h : Linked m none l) (hfuel : l.length < fuel) :
    findAfterFreeSize minimum minimumSize m fuel (firstOf none l) remaining =
      some (addressAfterFreeSize minimum minimumSize remaining l) := by
  obtain ⟨fuel, rfl⟩ : ∃ n, fuel = n + 1 := ⟨fuel - 1, by omega⟩
  induction l generalizing fuel remaining with
  | nil => rfl
  | cons e l ih =>
    rw [List.length_cons] at hfuel
    obtain ⟨fuel, rfl⟩ : ∃ n, fuel = n + 1 := ⟨fuel - 1, by omega⟩
    have hnext := fun remaining => @ih remaining h.2 fuel (by omega)
    rw [firstOf_cons, findAfterFreeSize, h.1, Option.bind_some, addressAfterFreeSize]
    dsimp only
    simp only [hnext, Extent.top]
    generalize (if remaining < minimumSize then minimumSize else remaining) = bumped
    split
    · split
      · split <;> rfl
      · rfl
    · split <;> rfl

/-- The address lies in the last entry that is needed, or at its end. -/
theorem addressAfterFreeSize_mem (h : addressAfterFreeSize minimum minimumSize remaining l =
    some address) (hpos : ∀ e ∈ l, 0 < e.size) (hneeded : 0 < remaining) :
    ∃ e ∈ l, e.base < address ∧ address ≤ e.top := by
  induction l generalizing remaining with
  | nil => cases h
  | cons e l ih =>
    have he := hpos e List.mem_cons_self
    have hl : ∀ x ∈ l, 0 < x.size := fun x hx => hpos x (List.mem_cons_of_mem _ hx)
    have htop : e.top = e.base + e.size := rfl
    have hlater : ∀ {remaining}, 0 < remaining →
        addressAfterFreeSize minimum minimumSize remaining l = some address →
        ∃ x ∈ e :: l, x.base < address ∧ address ≤ x.top := by
      intro remaining hneeded h
      obtain ⟨x, hx, hin⟩ := ih h hl hneeded
      exact ⟨x, List.mem_cons_of_mem _ hx, hin⟩
    rw [addressAfterFreeSize] at h
    have hbumped : 0 < if remaining < minimumSize then minimumSize else remaining := by
      split <;> omega
    generalize (if remaining < minimumSize then minimumSize else remaining) = bumped at h hbumped
    split at h
    · split at h
      · split at h
        · cases h
          exact ⟨e, List.mem_cons_self, by omega, le_rfl⟩
        · exact hlater (by omega) h
      · exact hlater hbumped h
    · split at h
      · cases h
        exact ⟨e, List.mem_cons_self, by omega, le_rfl⟩
      · cases h
        exact ⟨e, List.mem_cons_self, by omega, by omega⟩

/-- No piece that is cut off below an address is smaller than a header. -/
def HoldsPieces (address : ℕ) (l : List Extent) : Prop :=
  ∀ e ∈ l, e.base < address → sizeofFreeHeader ≤ address - e.base

/-- What is returned up to the address covers what was needed. -/
theorem le_totalSize_returned (h : addressAfterFreeSize minimum minimumSize remaining l =
    some address) (hord : AddressOrdered l) (hsize : ∀ e ∈ l, sizeofFreeHeader ≤ e.size)
    (hlow : ∀ e ∈ l, low ≤ e.base) (hneeded : 0 < remaining) (hpieces : HoldsPieces address l) :
    remaining ≤ totalSize (l.filterMap (returnedOf minimumSize low address)) := by
  induction l generalizing remaining with
  | nil => cases h
  | cons e l ih =>
    obtain ⟨hpos, hl, habove⟩ := AddressOrdered.cons_iff.1 hord
    have htop : e.top = e.base + e.size := rfl
    have hfits : sizeofFreeHeader ≤ e.size := hsize e List.mem_cons_self
    have hbase : max e.base low = e.base := max_eq_left (hlow e List.mem_cons_self)
    have hcount : totalSize ((e :: l).filterMap (returnedOf minimumSize low address)) =
        totalSize (returnedOf minimumSize low address e).toList +
          totalSize (l.filterMap (returnedOf minimumSize low address)) := by
      rw [List.filterMap_cons]
      cases returnedOf minimumSize low address e <;> simp
    -- A piece of the entry is returned if it has the minimum size.
    have hpiece : ∀ {size : ℕ}, min e.top address = e.base + size → minimumSize ≤ size →
        sizeofFreeHeader ≤ size → totalSize (returnedOf minimumSize low address e).toList = size := by
      intro size hmin hle hheader
      have hdiff : e.base + size - e.base = size := by omega
      rw [returnedOf, hbase, hmin, freeEntryIn, hdiff, if_pos ⟨hheader, hle⟩]
      simp
    have hlater : ∀ {remaining : ℕ}, 0 < remaining →
        addressAfterFreeSize minimum minimumSize remaining l = some address →
        e.top ≤ address ∧
          remaining ≤ totalSize (l.filterMap (returnedOf minimumSize low address)) := by
      intro remaining hneeded h
      obtain ⟨x, hx, hin⟩ := addressAfterFreeSize_mem h hl.size_pos hneeded
      have := habove x hx
      refine ⟨by omega, ih h hl (fun a ha => hsize a (List.mem_cons_of_mem _ ha))
        (fun a ha => hlow a (List.mem_cons_of_mem _ ha)) hneeded fun a ha =>
          hpieces a (List.mem_cons_of_mem _ ha)⟩
    rw [addressAfterFreeSize] at h
    have hbumped : remaining ≤ (if remaining < minimumSize then minimumSize else remaining) ∧
        minimumSize ≤ if remaining < minimumSize then minimumSize else remaining := by
      split <;> omega
    generalize (if remaining < minimumSize then minimumSize else remaining) = bumped at h hbumped
    rw [hcount]
    split at h
    · split at h
      · next hle hmin =>
        split at h
        · next hdone =>
          cases h
          rw [hpiece (min_self _) hmin hfits]
          omega
        · obtain ⟨htop', hrest⟩ := hlater (by omega) h
          rw [hpiece (min_eq_left htop') hmin hfits]
          omega
      · obtain ⟨-, hrest⟩ := hlater (by omega) h
        omega
    · split at h
      · cases h
        rw [hpiece (min_self _) (by omega) hfits]
        omega
      · cases h
        have hheader := hpieces e List.mem_cons_self (by omega)
        rw [hpiece (by omega) hbumped.2 (by omega)]
        omega

/-- With a minimum that can hold a header, the piece that is cut off can. -/
theorem holdsPieces_of_le (h : addressAfterFreeSize minimum minimumSize remaining l = some address)
    (hord : AddressOrdered l) (hsize : ∀ e ∈ l, sizeofFreeHeader ≤ e.size) (hneeded : 0 < remaining)
    (hminimum : sizeofFreeHeader ≤ minimumSize) : HoldsPieces address l := by
  induction l generalizing remaining with
  | nil => cases h
  | cons e l ih =>
    obtain ⟨hpos, hl, habove⟩ := AddressOrdered.cons_iff.1 hord
    have htop : e.top = e.base + e.size := rfl
    have hfits : sizeofFreeHeader ≤ e.size := hsize e List.mem_cons_self
    have hhere : e.base + sizeofFreeHeader ≤ address → address ≤ e.top →
        HoldsPieces address (e :: l) := by
      intro hheader hend x hx hlt
      rcases List.mem_cons.1 hx with rfl | hx
      · omega
      · have := habove x hx
        omega
    have hlater : ∀ {remaining : ℕ}, 0 < remaining →
        addressAfterFreeSize minimum minimumSize remaining l = some address →
        HoldsPieces address (e :: l) := by
      intro remaining hneeded hrest x hx hlt
      rcases List.mem_cons.1 hx with rfl | hx
      · obtain ⟨y, hy, hin⟩ := addressAfterFreeSize_mem hrest hl.size_pos hneeded
        have := habove y hy
        omega
      · exact ih hrest hl (fun a ha => hsize a (List.mem_cons_of_mem _ ha)) hneeded x hx hlt
    rw [addressAfterFreeSize] at h
    have hbumped : 0 < (if remaining < minimumSize then minimumSize else remaining) ∧
        minimumSize ≤ if remaining < minimumSize then minimumSize else remaining := by
      split <;> omega
    generalize (if remaining < minimumSize then minimumSize else remaining) = bumped at h hbumped
    split at h
    · split at h
      · split at h
        · cases h
          exact hhere (by omega) le_rfl
        · exact hlater (by omega) h
      · exact hlater hbumped.1 h
    · split at h
      · cases h
        exact hhere (by omega) le_rfl
      · cases h
        exact hhere (by omega) (by omega)

/-- Without an address the entries that count do not supply what is needed. -/
theorem totalSize_lt_of_eq_none (h : addressAfterFreeSize minimum minimumSize remaining l = none)
    (hneeded : 0 < remaining) :
    totalSize (l.filter fun e => minimumSize ≤ e.size) < remaining := by
  induction l generalizing remaining with
  | nil => exact hneeded
  | cons e l ih =>
    rw [addressAfterFreeSize] at h
    have hbumped : remaining ≤ (if remaining < minimumSize then minimumSize else remaining) ∧
        ((if remaining < minimumSize then minimumSize else remaining) = remaining ∨
          (if remaining < minimumSize then minimumSize else remaining) = minimumSize) := by
      split <;> omega
    generalize (if remaining < minimumSize then minimumSize else remaining) = bumped at h hbumped
    split at h
    · split at h
      · next hle hmin =>
        split at h
        · cases h
        · have := ih h (by omega)
          rw [List.filter_cons_of_pos (by simpa using hmin), totalSize_cons]
          omega
      · next hle hmin =>
        have hrest := ih h (by omega)
        rw [List.filter_cons_of_neg (by simpa using hmin)]
        -- Where the need has been raised to the minimum size, no entry is left that counts.
        cases hfilter : l.filter fun e => decide (minimumSize ≤ e.size) with
        | nil => exact hneeded
        | cons x rest =>
          have hx : x ∈ l.filter fun e => decide (minimumSize ≤ e.size) := by
            rw [hfilter]
            exact List.mem_cons_self
          have hxsize : minimumSize ≤ x.size := by simpa using (List.mem_filter.1 hx).2
          rw [hfilter, totalSize_cons] at hrest
          rw [totalSize_cons]
          omega
    · split at h
      · cases h
      · cases h

end Search

/-- The search and the removal agree. What the removal returns up to the address supplies the size
that is required, unless a piece is cut off that cannot hold a header; what stays of the entry that
is cut has the minimum size; and without an address the entries that count are too few. -/
theorem LinkedPool.findAddressAfterFreeSize_agrees {lp : LinkedPool} {l : List Extent}
    {fuel sizeRequired minimumSize : ℕ} (hlists : lp.Lists l) (hfuel : l.length < fuel)
    (hrequired : 0 < sizeRequired) :
    ∃ found : Option ℕ, lp.findAddressAfterFreeSize fuel sizeRequired minimumSize = some found ∧
      (∀ address ∈ found, ∀ low, (∀ e ∈ l.head?, low ≤ e.base) →
        ∃ (lp' : LinkedPool) (ret : RetList) (kept returned : List Extent),
          lp.removeFreeEntriesWithinRange fuel low address minimumSize = some (lp', true, ret) ∧
          lp'.Lists kept ∧ ret.Lists lp'.headers returned ∧
          (∀ e ∈ returned, minimumSize ≤ e.size) ∧
          (HoldsPieces address l → sizeRequired ≤ totalSize returned) ∧
          (sizeofFreeHeader ≤ minimumSize → HoldsPieces address l) ∧
          (∀ e ∈ kept, e ∉ l → lp.minimumFreeEntrySize ≤ e.size)) ∧
      (found = none → totalSize (l.filter fun e => minimumSize ≤ e.size) < sizeRequired) := by
  refine ⟨addressAfterFreeSize lp.minimumFreeEntrySize minimumSize sizeRequired l, ?_, ?_, ?_⟩
  · rw [findAddressAfterFreeSize, hlists.head_eq]
    exact findAfterFreeSize_linked hlists.linked hfuel
  · intro address hfound low hhead
    have hlow : ∀ e ∈ l, low ≤ e.base := by
      intro e he
      obtain ⟨a, rest, rfl⟩ := List.exists_cons_of_ne_nil (List.ne_nil_of_mem he)
      have := hhead a rfl
      rcases List.mem_cons.1 he with rfl | he
      · exact this
      · have := (AddressOrdered.cons_iff.1 hlists.ordered).2.2 e he
        simp only [Extent.top] at this
        omega
    obtain ⟨x, hx, hbase, htop⟩ := addressAfterFreeSize_mem hfound hlists.ordered.size_pos hrequired
    have hlt : low < address := (hlow x hx).trans_lt hbase
    let p : Pool := ⟨lp.minimumFreeEntrySize, l, lp.freeMemorySize, lp.freeEntryCount, 0,
      HintCache.initHints, 0, 0, 0, 0⟩
    have hrep : lp.Represents p := ⟨hlists, rfl, rfl, rfl⟩
    obtain ⟨lp', ret, hrun, hrep', hret, -⟩ :=
      removeFreeEntriesWithinRange_refines minimumSize hrep hlt hfuel
    obtain ⟨hkept, hreturned, -, -, htouched, -⟩ :=
      p.removeFreeEntriesWithinRange_parts minimumSize hlists.ordered hlt
    have htouch : (p.removeFreeEntriesWithinRange low address minimumSize).2.found = true := by
      refine htouched.2 ⟨x, hx, ?_, hbase⟩
      exact hlt.trans_le htop
    rw [htouch] at hrun
    refine ⟨lp', ret, _, _, hrun, hrep'.lists, hret, ?_, ?_, ?_, ?_⟩
    · rw [hreturned]
      intro e he
      obtain ⟨a, -, he⟩ := List.mem_filterMap.1 he
      exact (Pool.freeEntryIn_eq_some he).2.2.2
    · rw [hreturned]
      exact le_totalSize_returned hfound hlists.ordered hlists.size_le hlow hrequired
    · exact holdsPieces_of_le hfound hlists.ordered hlists.size_le hrequired
    · rw [hkept]
      intro e he hnew
      obtain ⟨a, ha, he⟩ := List.mem_flatMap.1 he
      rw [keptOf] at he
      split at he
      · rcases List.mem_append.1 he with he | he
        · exact (Pool.freeEntryIn_eq_some (Option.mem_toList.1 he)).2.2.2
        · exact (Pool.freeEntryIn_eq_some (Option.mem_toList.1 he)).2.2.2
      · cases List.mem_singleton.1 he
        exact absurd ha hnew
  · intro hnone
    exact totalSize_lt_of_eq_none hnone hrequired

theorem LinkedPool.findAddressAfterFreeSize_agrees_oneEntry :
    ∃ found : Option ℕ, (oneEntry 512).findAddressAfterFreeSize 2 256 64 = some found ∧
      (∀ address ∈ found, ∀ low, (∀ e ∈ [(⟨1024, 1024⟩ : Extent)].head?, low ≤ e.base) →
        ∃ (lp' : LinkedPool) (ret : RetList) (kept returned : List Extent),
          (oneEntry 512).removeFreeEntriesWithinRange 2 low address 64 = some (lp', true, ret) ∧
          lp'.Lists kept ∧ ret.Lists lp'.headers returned ∧
          (∀ e ∈ returned, 64 ≤ e.size) ∧
          (HoldsPieces address [⟨1024, 1024⟩] → 256 ≤ totalSize returned) ∧
          (sizeofFreeHeader ≤ 64 → HoldsPieces address [⟨1024, 1024⟩]) ∧
          (∀ e ∈ kept, e ∉ [(⟨1024, 1024⟩ : Extent)] → 512 ≤ e.size)) ∧
      (found = none → totalSize ([(⟨1024, 1024⟩ : Extent)].filter fun e => 64 ≤ e.size) < 256) :=
  findAddressAfterFreeSize_agrees (oneEntry_lists 512) (by decide) (by decide)

/-- Eight bytes are required and found, and the removal up to their end returns nothing. -/
theorem LinkedPool.findAddressAfterFreeSize_small :
    (oneEntry 512).Lists [⟨1024, 1024⟩] ∧
      (oneEntry 512).findAddressAfterFreeSize 2 8 8 = some (some 1032) ∧
      ((oneEntry 512).removeFreeEntriesWithinRange 2 1024 1032 8).map (fun r => r.2.2) =
        some ⟨none, none, 0, 0⟩ :=
  ⟨oneEntry_lists 512, by decide, by decide +kernel⟩

end OMR.GC
