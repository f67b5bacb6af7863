import OMR.GC.PoolTransitions

/-!
# The parts of the entries that a range cuts

A range of addresses cuts each free entry into the part below it, the part in it and the part
above it. A part that is large enough becomes an entry again, of the pool or of the list that is
returned; a smaller one is abandoned.
-/

namespace OMR.GC

open OMR.Lib

variable {minimum a b low high : ℕ} {e x : Extent}

theorem freeEntryIn_of_le (h : b ≤ a) : freeEntryIn minimum a b = none := by
  refine if_neg ?_
  simp only [sizeofFreeHeader]
  omega

/-- A range that is too small to become an entry is abandoned. -/
def abandonedIn (minimum a b : ℕ) : List Extent :=
  if a < b ∧ (freeEntryIn minimum a b).isNone then [⟨a, b - a⟩] else []

theorem abandonedIn_of_le (h : b ≤ a) : abandonedIn minimum a b = [] := if_neg (by omega)

theorem mem_abandonedIn (h : x ∈ abandonedIn minimum a b) :
    x.base = a ∧ x.top = b ∧ 0 < x.size ∧ x.size < max minimum sizeofFreeHeader := by
  rw [abandonedIn] at h
  split at h
  · next hsmall =>
    obtain ⟨hlt, hnone⟩ := hsmall
    rw [freeEntryIn] at hnone
    split at hnone
    · cases hnone
    · next hfits =>
      cases List.mem_singleton.1 h
      refine ⟨rfl, ?_, ?_, lt_max_iff.2 ?_⟩
      · simp only [Extent.top]
        omega
      · exact Nat.sub_pos_of_lt hlt
      · exact (not_and_or.1 hfits).symm.imp Nat.lt_of_not_le Nat.lt_of_not_le
  · cases h

/-- What becomes of a range: nothing if it is empty, else an entry or a fragment. -/
theorem part_cases (minimum a b : ℕ) :
    (b ≤ a ∧ freeEntryIn minimum a b = none ∧ abandonedIn minimum a b = []) ∨
    (a < b ∧ freeEntryIn minimum a b = some ⟨a, b - a⟩ ∧ abandonedIn minimum a b = []) ∨
    (a < b ∧ freeEntryIn minimum a b = none ∧ abandonedIn minimum a b = [⟨a, b - a⟩]) := by
  rcases Nat.lt_or_ge a b with hlt | hle
  · refine Or.inr ?_
    by_cases hfits : sizeofFreeHeader ≤ b - a ∧ minimum ≤ b - a
    · have hentry : freeEntryIn minimum a b = some ⟨a, b - a⟩ := if_pos hfits
      refine Or.inl ⟨hlt, hentry, if_neg ?_⟩
      rw [hentry]
      simp
    · have hentry : freeEntryIn minimum a b = none := if_neg hfits
      refine Or.inr ⟨hlt, hentry, if_pos ⟨hlt, ?_⟩⟩
      rw [hentry]
      rfl
  · exact Or.inl ⟨hle, freeEntryIn_of_le hle, abandonedIn_of_le hle⟩

/-- A range and what becomes of it. -/
def partIn (minimum a b : ℕ) : List Extent :=
  (freeEntryIn minimum a b).toList ++ abandonedIn minimum a b

theorem mem_partIn (h : x ∈ partIn minimum a b) : x.base = a ∧ x.top = b ∧ 0 < x.size := by
  rcases List.mem_append.1 h with h | h
  · obtain ⟨hbase, htop, hpos, -⟩ := Pool.freeEntryIn_eq_some (Option.mem_toList.1 h)
    exact ⟨hbase, htop, hpos⟩
  · obtain ⟨hbase, htop, hpos, -⟩ := mem_abandonedIn h
    exact ⟨hbase, htop, hpos⟩

theorem partIn_ordered (minimum a b : ℕ) : AddressOrdered (partIn minimum a b) := by
  rcases part_cases minimum a b with ⟨-, hentry, hlost⟩ | ⟨hlt, hentry, hlost⟩ | ⟨hlt, hentry, hlost⟩
  · rw [partIn, hentry, hlost]
    exact AddressOrdered.nil
  · rw [partIn, hentry, hlost]
    exact AddressOrdered.singleton (Nat.sub_pos_of_lt hlt)
  · rw [partIn, hentry, hlost]
    exact AddressOrdered.singleton (Nat.sub_pos_of_lt hlt)

theorem bytesOf_partIn (minimum a b : ℕ) : bytesOf (partIn minimum a b) = Set.Ico a b := by
  have hbytes : a < b → bytesOf [⟨a, b - a⟩] = Set.Ico a b := by
    intro hlt
    have htop : a + (b - a) = b := by omega
    rw [bytesOf_cons, bytesOf_nil, Set.union_empty, Extent.bytes, Extent.top, htop]
  rcases part_cases minimum a b with ⟨hle, hentry, hlost⟩ | ⟨hlt, hentry, hlost⟩ |
    ⟨hlt, hentry, hlost⟩
  · rw [partIn, hentry, hlost, Set.Ico_eq_empty (by omega)]
    exact bytesOf_nil
  · rw [partIn, hentry, hlost]
    exact hbytes hlt
  · rw [partIn, hentry, hlost]
    exact hbytes hlt

/-- Each extent of a list may give way to parts of it. -/
theorem flatMap_ordered {l : List Extent} (h : AddressOrdered l) {f : Extent → List Extent}
    (hord : ∀ e ∈ l, AddressOrdered (f e)) (hin : ∀ e ∈ l, ∀ x ∈ f e, x.Within e) :
    AddressOrdered (l.flatMap f) := by
  refine ⟨fun x hx => ?_, List.pairwise_flatMap.2 ⟨fun e he => (hord e he).apart, ?_⟩⟩
  · obtain ⟨e, he, hx⟩ := List.mem_flatMap.1 hx
    exact (hord e he).size_pos x hx
  · refine h.apart.imp_of_mem fun ha hb hab x hx y hy => ?_
    exact ((hin _ ha x hx).2.trans hab).trans (hin _ hb y hy).1

theorem bytesOf_flatMap {l : List Extent} {f : Extent → List Extent}
    (h : ∀ e ∈ l, bytesOf (f e) = e.bytes) : bytesOf (l.flatMap f) = bytesOf l := by
  induction l with
  | nil => rfl
  | cons e l ih =>
    rw [List.flatMap_cons, bytesOf_append, bytesOf_cons, h e List.mem_cons_self,
      ih fun x hx => h x (List.mem_cons_of_mem _ hx)]

/-- A range has bytes of an entry. -/
def Touches (low high : ℕ) (e : Extent) : Prop := low < e.top ∧ e.base < high

instance (low high : ℕ) (e : Extent) : Decidable (Touches low high e) :=
  inferInstanceAs (Decidable (_ ∧ _))

/-- The entries of the pool that an entry gives. -/
def keptOf (minimum low high : ℕ) (e : Extent) : List Extent :=
  if Touches low high e then
    (freeEntryIn minimum e.base low).toList ++ (freeEntryIn minimum high e.top).toList
  else [e]

/-- The fragments outside of the range that an entry gives. -/
def lostOutside (minimum low high : ℕ) (e : Extent) : List Extent :=
  if Touches low high e then abandonedIn minimum e.base low ++ abandonedIn minimum high e.top
  else []

/-- The entry that is returned of an entry. -/
def returnedOf (minimumSize low high : ℕ) (e : Extent) : Option Extent :=
  freeEntryIn minimumSize (max e.base low) (min e.top high)

/-- The fragment in the range that an entry gives. -/
def lostInside (minimumSize low high : ℕ) (e : Extent) : List Extent :=
  abandonedIn minimumSize (max e.base low) (min e.top high)

/-- All the parts of an entry, in the order of their addresses. -/
def partsOf (minimum minimumSize low high : ℕ) (e : Extent) : List Extent :=
  if Touches low high e then
    partIn minimum e.base low ++ (partIn minimumSize (max e.base low) (min e.top high) ++
      partIn minimum high e.top)
  else [e]

theorem partsOf_perm (minimum minimumSize low high : ℕ) (e : Extent) (hpos : 0 < e.size) :
    (partsOf minimum minimumSize low high e).Perm
      (keptOf minimum low high e ++ (returnedOf minimumSize low high e).toList ++
        (lostOutside minimum low high e ++ lostInside minimumSize low high e)) := by
  by_cases htouch : Touches low high e
  · rw [partsOf, keptOf, lostOutside, if_pos htouch, if_pos htouch, if_pos htouch, returnedOf,
      lostInside]
    refine List.perm_iff_count.2 fun x => ?_
    simp only [partIn, List.count_append]
    omega
  · have hempty : min e.top high ≤ max e.base low := by
      simp only [Touches, Extent.top] at htouch ⊢
      omega
    rw [partsOf, keptOf, lostOutside, if_neg htouch, if_neg htouch, if_neg htouch, returnedOf,
      lostInside, freeEntryIn_of_le hempty, abandonedIn_of_le hempty]
    exact List.Perm.refl _

theorem mem_partsOf {minimumSize : ℕ} (h : x ∈ partsOf minimum minimumSize low high e) :
    x.Within e := by
  rw [partsOf] at h
  split at h
  · next htouch =>
    obtain ⟨hlow, hhigh⟩ := htouch
    simp only [List.mem_append] at h
    rcases h with h | h | h
    all_goals
      obtain ⟨hbase, htop, hpos⟩ := mem_partIn h
      have hxtop : x.top = x.base + x.size := rfl
      exact ⟨by omega, by omega⟩
  · cases List.mem_singleton.1 h
    exact Extent.within_refl _

theorem partsOf_ordered {minimumSize : ℕ} (hlt : low < high) (hpos : 0 < e.size) :
    AddressOrdered (partsOf minimum minimumSize low high e) := by
  rw [partsOf]
  split
  · refine AddressOrdered.append_iff.2 ⟨partIn_ordered .., AddressOrdered.append_iff.2
      ⟨partIn_ordered .., partIn_ordered .., fun a ha b hb => ?_⟩, fun a ha b hb => ?_⟩
    · have := (mem_partIn ha).2.1
      have := (mem_partIn hb).1
      omega
    · have := (mem_partIn ha).2.1
      rcases List.mem_append.1 hb with hb | hb
      · have := (mem_partIn hb).1
        omega
      · have := (mem_partIn hb).1
        omega
  · exact AddressOrdered.singleton hpos

theorem bytesOf_partsOf {minimumSize : ℕ} :
    bytesOf (partsOf minimum minimumSize low high e) = e.bytes := by
  rw [partsOf]
  split
  · next htouch =>
    obtain ⟨hlow, hhigh⟩ := htouch
    simp only [bytesOf_append, bytesOf_partIn]
    ext x
    simp only [Set.mem_union, Set.mem_Ico, Extent.mem_bytes]
    omega
  · rw [bytesOf_cons, bytesOf_nil, Set.union_empty]

theorem keptOf_of_not_touches (h : ¬Touches low high e) : keptOf minimum low high e = [e] := if_neg h

theorem returnedOf_of_not_touches {minimumSize : ℕ} (hpos : 0 < e.size)
    (h : ¬Touches low high e) : returnedOf minimumSize low high e = none := by
  refine freeEntryIn_of_le ?_
  simp only [Touches, Extent.top] at h ⊢
  omega

/-- A list that the range does not touch stays as it is. -/
theorem untouched (minimum minimumSize : ℕ) {l : List Extent}
    (hpos : ∀ e ∈ l, 0 < e.size) (h : ∀ e ∈ l, ¬Touches low high e) :
    l.flatMap (keptOf minimum low high) = l ∧ l.filterMap (returnedOf minimumSize low high) = [] := by
  induction l with
  | nil => exact ⟨rfl, rfl⟩
  | cons e l ih =>
    obtain ⟨hkept, hreturned⟩ := ih (fun x hx => hpos x (List.mem_cons_of_mem _ hx))
      fun x hx => h x (List.mem_cons_of_mem _ hx)
    have he := h e List.mem_cons_self
    constructor
    · rw [List.flatMap_cons, keptOf_of_not_touches he, hkept, List.singleton_append]
    · rw [List.filterMap_cons_none (returnedOf_of_not_touches (hpos e List.mem_cons_self) he),
        hreturned]

/-- A list inside of the range leaves the pool. -/
theorem swallowed (minimum minimumSize : ℕ) {l : List Extent} (hpos : ∀ e ∈ l, 0 < e.size)
    (hlow : ∀ e ∈ l, low ≤ e.base) (hhigh : ∀ e ∈ l, e.top ≤ high) :
    l.flatMap (keptOf minimum low high) = [] ∧
      l.filterMap (returnedOf minimumSize low high) =
        l.filterMap fun e => freeEntryIn minimumSize e.base e.top := by
  have htouch : ∀ e ∈ l, Touches low high e := by
    intro e he
    have := hpos e he
    have := hlow e he
    have := hhigh e he
    simp only [Touches, Extent.top] at this ⊢
    omega
  constructor
  · refine List.flatMap_eq_nil_iff.2 fun e he => ?_
    rw [keptOf, if_pos (htouch e he), freeEntryIn_of_le (hlow e he), freeEntryIn_of_le (hhigh e he)]
    rfl
  · refine List.filterMap_congr fun e he => ?_
    rw [returnedOf, max_eq_left (hlow e he), min_eq_left (hhigh e he)]

/-- What the removal of a range `[low, high)` from a free list leaves, what it returns, and the
fragments it abandons outside and inside of the range, smaller than the bounds. -/
structure RangeRemoved (minimumSize low high outsideMinimum insideMinimum : ℕ)
    (before kept returned outside inside : List Extent) : Prop where
  kept_ordered : AddressOrdered kept
  kept_outside : ∀ e ∈ kept, e.top ≤ low ∨ high ≤ e.base
  returned_ordered : AddressOrdered returned
  returned_inside : ∀ e ∈ returned, low ≤ e.base ∧ e.top ≤ high ∧ minimumSize ≤ e.size
  bytes_eq : bytesOf before = bytesOf kept ∪ bytesOf returned ∪ (bytesOf outside ∪ bytesOf inside)
  apart : (kept ++ returned ++ (outside ++ inside)).Pairwise Extent.Apart
  outside_small : ∀ f ∈ outside, f.size < outsideMinimum ∧
    ∃ e ∈ before, f.base = e.base ∧ f.top = low ∨ f.base = high ∧ f.top = e.top
  inside_small : ∀ f ∈ inside, f.size < insideMinimum ∧
    ∃ e ∈ before, f.base = max e.base low ∧ f.top = min e.top high

/-- The parts of the entries of a list are what its removal leaves, returns and abandons. -/
theorem rangeRemoved_parts (minimum minimumSize : ℕ) {l : List Extent} (hord : AddressOrdered l)
    (hlt : low < high) : RangeRemoved minimumSize low high (max minimum sizeofFreeHeader)
      (max minimumSize sizeofFreeHeader) l (l.flatMap (keptOf minimum low high)) (l.filterMap (returnedOf minimumSize low high))
      (l.flatMap (lostOutside minimum low high)) (l.flatMap (lostInside minimumSize low high)) := by
  have hparts : AddressOrdered (l.flatMap (partsOf minimum minimumSize low high)) :=
    flatMap_ordered hord (fun e he => partsOf_ordered hlt (hord.size_pos e he))
      fun _ _ _ hx => mem_partsOf hx
  have hperm : (l.flatMap (partsOf minimum minimumSize low high)).Perm
      (l.flatMap (keptOf minimum low high) ++ l.filterMap (returnedOf minimumSize low high) ++
        (l.flatMap (lostOutside minimum low high) ++ l.flatMap (lostInside minimumSize low high))) := by
    rw [List.filterMap_eq_flatMap_toList]
    refine (List.Perm.flatMap_left l fun e he => partsOf_perm minimum minimumSize low high e
      (hord.size_pos e he)).trans ?_
    exact (List.flatMap_append_perm l _ _).symm.trans
      ((List.flatMap_append_perm l _ _).symm.append (List.flatMap_append_perm l _ _).symm)
  have hbytes : bytesOf (l.flatMap (partsOf minimum minimumSize low high)) = bytesOf l :=
    bytesOf_flatMap fun _ _ => bytesOf_partsOf
  refine ⟨?_, fun x hx => ?_, ?_, fun x hx => ?_, ?_, ?_, fun f hf => ?_, fun f hf => ?_⟩
  · refine flatMap_ordered hord (fun e he => ?_) fun e he x hx => ?_
    · rw [keptOf]
      split
      · refine AddressOrdered.append_iff.2 ⟨Pool.addressOrdered_freeEntryIn ..,
          Pool.addressOrdered_freeEntryIn .., fun a ha b hb => ?_⟩
        have := (Pool.freeEntryIn_eq_some (Option.mem_toList.1 ha)).2.1
        have := (Pool.freeEntryIn_eq_some (Option.mem_toList.1 hb)).1
        omega
      · exact AddressOrdered.singleton (hord.size_pos e he)
    · refine mem_partsOf ((partsOf_perm minimum minimumSize low high e
        (hord.size_pos e he)).mem_iff.2 ?_)
      exact List.mem_append_left _ (List.mem_append_left _ hx)
  · obtain ⟨e, he, hx⟩ := List.mem_flatMap.1 hx
    rw [keptOf] at hx
    split at hx
    · rcases List.mem_append.1 hx with hx | hx
      · have := (Pool.freeEntryIn_eq_some (Option.mem_toList.1 hx)).2.1
        exact Or.inl this.le
      · have := (Pool.freeEntryIn_eq_some (Option.mem_toList.1 hx)).1
        exact Or.inr this.ge
    · next hno =>
      cases List.mem_singleton.1 hx
      simp only [Touches] at hno
      omega
  · rw [List.filterMap_eq_flatMap_toList]
    refine flatMap_ordered hord (fun e _ => Pool.addressOrdered_freeEntryIn ..) fun e he x hx => ?_
    refine mem_partsOf ((partsOf_perm minimum minimumSize low high e
      (hord.size_pos e he)).mem_iff.2 ?_)
    exact List.mem_append_left _ (List.mem_append_right _ hx)
  · obtain ⟨e, -, hx⟩ := List.mem_filterMap.1 hx
    obtain ⟨hbase, htop, -, hmin⟩ := Pool.freeEntryIn_eq_some hx
    exact ⟨hbase ▸ le_max_right _ _, htop ▸ min_le_right _ _, hmin⟩
  · rw [← hbytes, ← bytesOf_append, ← bytesOf_append, ← bytesOf_append]
    ext x
    simp only [bytesOf, Set.mem_ofPred_eq, hperm.mem_iff]
  · exact (hperm.pairwise_iff fun hab => Extent.Apart.symm hab).1 (hparts.apart.imp Or.inl)
  · obtain ⟨e, he, hf⟩ := List.mem_flatMap.1 hf
    rw [lostOutside] at hf
    split at hf
    · rcases List.mem_append.1 hf with hf | hf
      · obtain ⟨hbase, htop, -, hsmall⟩ := mem_abandonedIn hf
        exact ⟨hsmall, e, he, Or.inl ⟨hbase, htop⟩⟩
      · obtain ⟨hbase, htop, -, hsmall⟩ := mem_abandonedIn hf
        exact ⟨hsmall, e, he, Or.inr ⟨hbase, htop⟩⟩
    · cases hf
  · obtain ⟨e, he, hf⟩ := List.mem_flatMap.1 hf
    obtain ⟨hbase, htop, -, hsmall⟩ := mem_abandonedIn hf
    exact ⟨hsmall, e, he, hbase, htop⟩

namespace Pool

/-- The last entry that has bytes in the range, and those above it. -/
theorem cutLast_parts (p : Pool) (minimumSize : ℕ) {rest : List Extent} (hlt : low < high)
    (hord : AddressOrdered rest) (hlow : ∀ e ∈ rest, low ≤ e.base)
    (hreach : ∀ e ∈ rest.head?, high < e.top) :
    (p.cutLast high minimumSize rest).1 = rest.flatMap (keptOf p.minimumFreeEntrySize low high) ∧
      (p.cutLast high minimumSize rest).2.1 = rest.filterMap (returnedOf minimumSize low high) ∧
      (p.cutLast high minimumSize rest).2.2.1 + totalSize (p.cutLast high minimumSize rest).1 =
        totalSize rest ∧
      (p.cutLast high minimumSize rest).2.2.2 + (p.cutLast high minimumSize rest).1.length =
        rest.length := by
  cases rest with
  | nil => exact ⟨rfl, rfl, rfl, rfl⟩
  | cons e rest =>
    have htop : high < e.top := hreach e rfl
    obtain ⟨hpos, hrest, habove⟩ := AddressOrdered.cons_iff.1 hord
    have hno : ∀ x ∈ rest, ¬Touches low high x := by
      intro x hx htouch
      have := habove x hx
      exact absurd htouch.2 (by omega)
    obtain ⟨hkept, hreturned⟩ := untouched p.minimumFreeEntrySize minimumSize hrest.size_pos hno
    have hle : low ≤ e.base := hlow e List.mem_cons_self
    have hetop : e.top = e.base + e.size := rfl
    by_cases hcut : e.base < high
    · have htouch : Touches low high e := ⟨by omega, hcut⟩
      have hlist : p.cutLast high minimumSize (e :: rest) =
          ((freeEntryIn p.minimumFreeEntrySize high e.top).toList ++ rest,
            (freeEntryIn minimumSize e.base high).toList,
            e.size - (if (freeEntryIn p.minimumFreeEntrySize high e.top).isSome then e.top - high
              else 0), 1 - ((freeEntryIn p.minimumFreeEntrySize high e.top).toList.length : ℤ)) := by
        rw [cutLast, if_pos hcut]
        rfl
      have hkeptOf : keptOf p.minimumFreeEntrySize low high e =
          (freeEntryIn p.minimumFreeEntrySize high e.top).toList := by
        rw [keptOf, if_pos htouch, freeEntryIn_of_le hle]
        rfl
      have hreturnedOf : returnedOf minimumSize low high e = freeEntryIn minimumSize e.base high := by
        rw [returnedOf, max_eq_left hle, min_eq_right htop.le]
      rw [hlist]
      refine ⟨?_, ?_, ?_, ?_⟩
      · rw [List.flatMap_cons, hkeptOf, hkept]
      · rw [List.filterMap_cons, hreturnedOf, hreturned]
        cases freeEntryIn minimumSize e.base high <;> rfl
      · rw [totalSize_append, totalSize_freeEntryIn, totalSize_cons]
        dsimp only
        split
        · omega
        · omega
      · rw [List.length_append, List.length_cons]
        push_cast
        ring
    · have hno : ¬Touches low high e := fun htouch => hcut htouch.2
      have hlist : p.cutLast high minimumSize (e :: rest) = (e :: rest, [], 0, 0) := if_neg hcut
      rw [hlist]
      refine ⟨?_, ?_, Nat.zero_add _, zero_add _⟩
      · rw [List.flatMap_cons, keptOf_of_not_touches hno, hkept]
        rfl
      · rw [List.filterMap_cons_none (returnedOf_of_not_touches hpos hno), hreturned]

/-- Every entry below the first one in the range ends below the range. -/
theorem takeWhile_below {l : List Extent} (low : ℕ) :
    ∀ e ∈ l.takeWhile fun e => ¬(low ≤ e.base ∨ low < e.top), e.top ≤ low := by
  intro e he
  have := List.mem_takeWhile_imp he
  simp only [decide_eq_true_eq, not_or, not_lt] at this
  exact this.2

/-- `removeFreeEntriesWithinRange` takes every entry of the list apart. -/
theorem removeFreeEntriesWithinRange_parts (p : Pool) (minimumSize : ℕ)
    (hord : AddressOrdered p.heapFreeList) (hlt : low < high) :
    let after := p.removeFreeEntriesWithinRange low high minimumSize
    after.1.heapFreeList = p.heapFreeList.flatMap (keptOf p.minimumFreeEntrySize low high) ∧
      after.2.retList = p.heapFreeList.filterMap (returnedOf minimumSize low high) ∧
      after.2.retListMemoryCount = after.2.retList.length ∧
      after.2.retListMemorySize = totalSize after.2.retList ∧
      (after.2.found ↔ ∃ e ∈ p.heapFreeList, Touches low high e) ∧
      after.1.freeMemorySize = p.freeMemorySize - totalSize p.heapFreeList +
        totalSize after.1.heapFreeList ∧
      after.1.freeEntryCount = p.freeEntryCount - p.heapFreeList.length +
        after.1.heapFreeList.length ∧
      after.1.minimumFreeEntrySize = p.minimumFreeEntrySize := by
  intro after
  have hsplit := (List.takeWhile_append_dropWhile
    (p := fun e : Extent => decide ¬(low ≤ e.base ∨ low < e.top)) (l := p.heapFreeList)).symm
  have hbelow := takeWhile_below (l := p.heapFreeList) low
  have hafter : after = p.removeFreeEntriesWithinRange low high minimumSize := rfl
  rw [removeFreeEntriesWithinRange] at hafter
  dsimp only at hafter
  generalize hprev : p.heapFreeList.takeWhile (fun e => decide ¬(low ≤ e.base ∨ low < e.top)) =
    previous at hsplit hbelow hafter
  have hnotBelow : ∀ e ∈ previous, ¬Touches low high e := fun e he htouch => by
    have := hbelow e he
    exact absurd htouch.1 (by omega)
  have hnothing : (∀ e ∈ p.heapFreeList, ¬Touches low high e) → after = (p, ⟨false, [], 0, 0⟩) →
      after.1.heapFreeList = p.heapFreeList.flatMap (keptOf p.minimumFreeEntrySize low high) ∧
      after.2.retList = p.heapFreeList.filterMap (returnedOf minimumSize low high) ∧
      after.2.retListMemoryCount = after.2.retList.length ∧
      after.2.retListMemorySize = totalSize after.2.retList ∧
      (after.2.found ↔ ∃ e ∈ p.heapFreeList, Touches low high e) ∧
      after.1.freeMemorySize = p.freeMemorySize - totalSize p.heapFreeList +
        totalSize after.1.heapFreeList ∧
      after.1.freeEntryCount = p.freeEntryCount - p.heapFreeList.length +
        after.1.heapFreeList.length ∧
      after.1.minimumFreeEntrySize = p.minimumFreeEntrySize := by
    intro hno heq
    obtain ⟨hkept, hreturned⟩ := untouched p.minimumFreeEntrySize minimumSize hord.size_pos hno
    rw [heq, hkept, hreturned]
    refine ⟨rfl, rfl, rfl, rfl, ⟨fun h => absurd h Bool.false_ne_true, ?_⟩, by ring, by ring, rfl⟩
    rintro ⟨e, he, htouch⟩
    exact absurd htouch (hno e he)
  cases hrest : p.heapFreeList.dropWhile fun e => decide ¬(low ≤ e.base ∨ low < e.top) with
  | nil =>
    rw [hrest] at hsplit hafter
    refine hnothing (fun e he => hnotBelow e ?_) hafter
    rwa [hsplit, List.append_nil] at he
  | cons current next =>
    rw [hrest] at hsplit hafter
    dsimp only at hafter
    rw [hsplit] at hord
    obtain ⟨hpos, hnext, habove⟩ := AddressOrdered.cons_iff.1 hord.right
    have hctop : current.top = current.base + current.size := rfl
    by_cases hhigh : high ≤ current.base
    · rw [if_pos hhigh] at hafter
      refine hnothing (fun e he htouch => ?_) hafter
      have hnot : ∀ e ∈ current :: next, high ≤ e.base := fun e he => by
        rcases List.mem_cons.1 he with rfl | he
        · exact hhigh
        · have := habove e he
          omega
      rw [hsplit] at he
      rcases List.mem_append.1 he with he | he
      · exact hnotBelow e he htouch
      · exact absurd htouch.2 (Nat.not_lt.2 (hnot e he))
    rw [if_neg hhigh] at hafter
    have hinside : low ≤ current.base ∨ low < current.top := by
      have := not_of_dropWhile_eq_cons hrest
      simpa only [decide_eq_false_iff_not, not_not] using this
    have htouch : Touches low high current := ⟨by omega, by omega⟩
    -- The entries behind the first one lie above the beginning of the range.
    have hlow : ∀ e ∈ next, low ≤ e.base := fun e he => by
      have := habove e he
      have := htouch.1
      omega
    have hnextSplit := (List.takeWhile_append_dropWhile
      (p := fun e : Extent => decide (e.top ≤ high)) (l := next)).symm
    have hwhole : ∀ e ∈ next.takeWhile (fun e => decide (e.top ≤ high)), e.top ≤ high :=
      fun e he => by simpa using List.mem_takeWhile_imp he
    have hreach : ∀ e ∈ (next.dropWhile fun e => decide (e.top ≤ high)).head?, high < e.top := by
      intro e he
      cases hdrop : next.dropWhile fun e => decide (e.top ≤ high) with
      | nil =>
        rw [hdrop] at he
        cases he
      | cons a rest =>
        rw [hdrop] at he
        cases Option.some_inj.1 he
        simpa using not_of_dropWhile_eq_cons hdrop
    generalize next.takeWhile (fun e => decide (e.top ≤ high)) = whole at hnextSplit hwhole hafter
    generalize (next.dropWhile fun e => decide (e.top ≤ high)) = rest
      at hnextSplit hreach hafter
    subst hnextSplit
    obtain ⟨hlist, hrets, hsize, hcount⟩ := p.cutLast_parts minimumSize hlt hnext.right
      (fun e he => hlow e (List.mem_append_right _ he)) hreach
    obtain ⟨hkeptWhole, hwholeRets⟩ := swallowed p.minimumFreeEntrySize minimumSize
      hnext.left.size_pos (fun e he => hlow e (List.mem_append_left _ he)) hwhole
    obtain ⟨hkeptPrevious, hpreviousRets⟩ := untouched p.minimumFreeEntrySize minimumSize
      hord.left.size_pos hnotBelow
    have hleading : (if current.base < low then p.createFreeEntry current.base low else none) =
        freeEntryIn p.minimumFreeEntrySize current.base low := by
      split
      · rfl
      · exact (freeEntryIn_of_le (by omega)).symm
    have htrailing : (if high < current.top then p.createFreeEntry high current.top else none) =
        freeEntryIn p.minimumFreeEntrySize high current.top := by
      split
      · rfl
      · exact (freeEntryIn_of_le (by omega)).symm
    have hbase : (if current.base < low then low else current.base) = max current.base low := by
      split <;> omega
    have htop : (if high < current.top then high else current.top) = min current.top high := by
      split <;> omega
    have hkept : keptOf p.minimumFreeEntrySize low high current =
        (freeEntryIn p.minimumFreeEntrySize current.base low).toList ++
          (freeEntryIn p.minimumFreeEntrySize high current.top).toList := if_pos htouch
    rw [hleading, htrailing, hbase, htop] at hafter
    have hfree : previous ++ ((freeEntryIn p.minimumFreeEntrySize current.base low).toList ++
          (freeEntryIn p.minimumFreeEntrySize high current.top).toList ++
            (p.cutLast high minimumSize rest).1) =
        p.heapFreeList.flatMap (keptOf p.minimumFreeEntrySize low high) := by
      rw [hsplit, List.flatMap_append, List.flatMap_cons, List.flatMap_append, hkeptPrevious, hkept,
        hkeptWhole, hlist, List.nil_append]
    have hremoved : current.size -
          (if (freeEntryIn p.minimumFreeEntrySize current.base low).isSome then low - current.base
            else 0) -
          (if (freeEntryIn p.minimumFreeEntrySize high current.top).isSome then current.top - high
            else 0) +
          totalSize whole + (p.cutLast high minimumSize rest).2.2.1 +
        totalSize (p.heapFreeList.flatMap (keptOf p.minimumFreeEntrySize low high)) =
        totalSize p.heapFreeList := by
      have hfits : (if (freeEntryIn p.minimumFreeEntrySize current.base low).isSome then
            low - current.base else 0) +
          (if (freeEntryIn p.minimumFreeEntrySize high current.top).isSome then
            current.top - high else 0) ≤ current.size := by
        have := htouch.1
        have := htouch.2
        split
        all_goals
          split
          all_goals omega
      rw [← hfree, hsplit]
      simp only [totalSize_append, totalSize_cons, totalSize_freeEntryIn]
      omega
    rw [hafter]
    refine ⟨hfree, ?_, rfl, rfl, ⟨fun _ => ⟨current, by simp [hsplit], htouch⟩, fun _ => rfl⟩, ?_, ?_,
      rfl⟩
    · rw [hsplit, List.filterMap_append, List.filterMap_cons, List.filterMap_append, hpreviousRets,
        hwholeRets, hrets]
      simp only [returnedOf]
      cases freeEntryIn minimumSize (max current.base low) (min current.top high) <;> simp
    · dsimp only
      rw [hfree, ← hremoved]
      push_cast
      ring
    · dsimp only
      rw [hsplit]
      simp only [List.length_append, List.length_cons]
      push_cast at hcount ⊢
      linarith

end Pool

end OMR.GC
