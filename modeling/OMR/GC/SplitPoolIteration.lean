import OMR.GC.SplitPoolPostProcess

/-!
# Walking the free entries of the split pool

A walker of the heap takes the entries one after the other without knowing the lists:
from the last entry of a list the pool leads on to the first list whose head is at a
higher address. The lists are therefore not found by their place but by their heads, and
the walk meets every entry once where the lists follow each other in memory.
-/

namespace OMR.GC.SplitPool

open OMR.Lib

variable {p : SplitPool} {e : Extent} {i : ℕ}

/-- The head of a list. -/
def head (p : SplitPool) (i : ℕ) : Option ℕ := (p.entries i).head?.map Extent.base

/-- The head of a list is at a higher address; `NULL` is at none. -/
def headIsAbove (p : SplitPool) (i address : ℕ) : Bool := (p.head i).any fun head => address < head

/-- `getNext` of the entry at an address. -/
def nextOf (p : SplitPool) (address : ℕ) : Option ℕ :=
  (List.range p.heapFreeListCount).findSome? fun i =>
    ((p.heapFreeLists i).next (.entry address)).head?.map Extent.base

/-- `getFirstFreeStartingAddr`: the address, and the index of its list where the caller has
given a place for it. -/
def getFirstFreeStartingAddr (p : SplitPool) (currentFreeListReturn : Option ℕ) :
    Option ℕ × Option ℕ :=
  match (List.range p.heapFreeListCount).find? fun i => p.entries i ≠ [] with
  | some i => (p.head i, currentFreeListReturn.map fun _ => i)
  | none => (none, currentFreeListReturn.map fun _ => p.heapFreeListCount)

/-- The list that `getNextFreeStartingAddr` begins its search with: the one the caller names
unless that cannot be right. -/
def startFreeListIndex (p : SplitPool) (currentFree : ℕ) (currentFreeListIndex : Option ℕ) : ℕ :=
  match currentFreeListIndex with
  | none => 0
  | some index =>
    if index ≥ p.heapFreeListCount then 0
    else if p.headIsAbove index currentFree then 0
    else index

/-- `getNextFreeStartingAddr`. The index changes only with the list. -/
def getNextFreeStartingAddr (p : SplitPool) (currentFree : ℕ) (currentFreeListIndex : Option ℕ) :
    Option ℕ × Option ℕ :=
  match p.nextOf currentFree with
  | some next => (some next, currentFreeListIndex)
  | none =>
    let start := p.startFreeListIndex currentFree currentFreeListIndex
    match (List.range' start (p.heapFreeListCount - start)).find? fun i =>
      p.headIsAbove i currentFree with
    | some i => (p.head i, currentFreeListIndex.map fun _ => i)
    | none => (none, currentFreeListIndex.map fun _ => p.heapFreeListCount)

/-- The addresses that `getNextFreeStartingAddr` gives one after the other up to `NULL`,
`none` if that takes more steps than there is fuel. -/
def freeStartingAddrs (p : SplitPool) : (fuel : ℕ) → Option ℕ × Option ℕ → Option (List ℕ)
  | 0, _ => none
  | _ + 1, (none, _) => some []
  | fuel + 1, (some currentFree, index) =>
    (p.freeStartingAddrs fuel (p.getNextFreeStartingAddr currentFree index)).map (currentFree :: ·)

/-- Each list is ordered, and lies below the lists after it. -/
structure ListsInOrder (p : SplitPool) : Prop where
  each : ∀ i < p.heapFreeListCount, AddressOrdered (p.entries i)
  across : ∀ i j, i < j → j < p.heapFreeListCount →
    ∀ a ∈ p.entries i, ∀ b ∈ p.entries j, a.top ≤ b.base

/-- The walk from the first entry meets all entries in the order of the lists, whether the
caller asks for the indices or not. -/
def WalksAll (p : SplitPool) : Prop :=
  ∀ index : Option ℕ, p.freeStartingAddrs (p.allEntries.length + 1)
    (p.getFirstFreeStartingAddr index) = some (p.allEntries.map Extent.base)

theorem listsInOrder_iff : p.ListsInOrder ↔ AddressOrdered p.allEntries := by
  constructor
  · intro h
    refine ⟨fun e he => ?_, List.pairwise_flatMap.2 ⟨fun i hi => ?_, ?_⟩⟩
    · obtain ⟨i, hi, he⟩ := List.mem_flatMap.1 he
      exact (h.each i (List.mem_range.1 hi)).size_pos e he
    · exact (h.each i (List.mem_range.1 hi)).apart
    · exact List.pairwise_lt_range.imp_of_mem fun _ hj hij a ha b hb =>
        h.across _ _ hij (List.mem_range.1 hj) a ha b hb
  · intro h
    refine ⟨(ordered_of_allEntries h).1, fun i j hij hj a ha b hb => ?_⟩
    have hbefore := List.pairwise_iff_getElem.1 (List.pairwise_flatMap.1 h.apart).2 i j
      (by simp; omega) (by simpa) hij
    simp only [List.getElem_range] at hbefore
    exact hbefore a ha b hb

/-- The entries of a list and of those after it. -/
def entriesFrom (p : SplitPool) (i : ℕ) : List Extent :=
  (List.range' i (p.heapFreeListCount - i)).flatMap p.entries

theorem entriesFrom_eq_append (hi : i < p.heapFreeListCount) :
    p.entriesFrom i = p.entries i ++ p.entriesFrom (i + 1) := by
  have hlen : p.heapFreeListCount - i = p.heapFreeListCount - (i + 1) + 1 := by omega
  rw [entriesFrom, hlen, List.range'_succ, List.flatMap_cons, entriesFrom]

theorem allEntries_eq_entriesFrom (p : SplitPool) : p.allEntries = p.entriesFrom 0 := by
  rw [allEntries, entriesFrom, List.range_eq_range', Nat.sub_zero]

/-- The lists from some one on are empty, or there is a first one among them that is not. -/
theorem entriesFrom_cases (p : SplitPool) (i : ℕ) :
    (p.entriesFrom i = [] ∧ ∀ k, i ≤ k → k < p.heapFreeListCount → p.entries k = []) ∨
      ∃ j z zs, i ≤ j ∧ j < p.heapFreeListCount ∧ p.entries j = z :: zs ∧
        (∀ k, i ≤ k → k < j → p.entries k = []) ∧
        p.entriesFrom i = z :: (zs ++ p.entriesFrom (j + 1)) := by
  induction hn : p.heapFreeListCount - i generalizing i with
  | zero =>
    left
    refine ⟨?_, fun k hik hk => by omega⟩
    rw [entriesFrom, hn]
    rfl
  | succ n ih =>
    have hi : i < p.heapFreeListCount := by omega
    have hcut := entriesFrom_eq_append hi
    cases hlist : p.entries i with
    | cons z zs =>
      right
      rw [hlist] at hcut
      exact ⟨i, z, zs, le_rfl, hi, hlist, fun k hik hki => by omega, hcut⟩
    | nil =>
      rw [hlist, List.nil_append] at hcut
      have hfirst : ∀ k, i ≤ k → i + 1 ≤ k ∨ p.entries k = [] := by
        intro k hik
        obtain rfl | hlt := Nat.eq_or_lt_of_le hik
        · exact Or.inr hlist
        · exact Or.inl hlt
      obtain ⟨hnil, hempty⟩ | ⟨j, z, zs, hij, hj, hz, hempty, hrest⟩ := ih (i + 1) (by omega)
      · left
        refine ⟨hcut.trans hnil, fun k hik hk => ?_⟩
        exact (hfirst k hik).elim (fun hlt => hempty k hlt hk) id
      · right
        refine ⟨j, z, zs, by omega, hj, hz, fun k hik hk => ?_, hcut.trans hrest⟩
        exact (hfirst k hik).elim (fun hlt => hempty k hlt hk) id

theorem head_cons {z : Extent} {zs : List Extent} (h : p.entries i = z :: zs) :
    p.head i = some z.base := by
  rw [head, h]
  rfl

theorem headIsAbove_nil {address : ℕ} (h : p.entries i = []) : p.headIsAbove i address = false := by
  rw [headIsAbove, head, h]
  rfl

namespace ListsInOrder

variable {xs ys : List Extent}

/-- The heads above an entry are those of the lists behind its own. -/
theorem headIsAbove_of_lt (h : p.ListsInOrder) {j : ℕ} (hij : i < j)
    (hj : j < p.heapFreeListCount) (he : e ∈ p.entries i) (hne : p.entries j ≠ []) :
    p.headIsAbove j e.base = true := by
  obtain ⟨z, zs, hz⟩ := List.exists_cons_of_ne_nil hne
  have hpos := (h.each i (by omega)).size_pos e he
  have hbefore := h.across i j hij hj e he z (by rw [hz]; exact List.mem_cons_self ..)
  rw [headIsAbove, head_cons hz]
  simp only [Extent.top, Option.any_some, decide_eq_true_eq] at hbefore ⊢
  omega

theorem headIsAbove_of_le (h : p.ListsInOrder) {j : ℕ} (hji : j ≤ i)
    (hi : i < p.heapFreeListCount) (he : e ∈ p.entries i) : p.headIsAbove j e.base = false := by
  cases hz : p.entries j with
  | nil => exact headIsAbove_nil hz
  | cons z zs =>
    have hle : z.base ≤ e.base := by
      obtain rfl | hlt := Nat.eq_or_lt_of_le hji
      · rw [hz] at he
        obtain rfl | he := List.mem_cons.1 he
        · exact le_rfl
        · have hord := h.each j hi
          rw [hz, ← List.singleton_append] at hord
          exact (hord.cut_lt (List.mem_singleton_self z) he).le
      · have hbefore := h.across j i hlt hi z (by rw [hz]; exact List.mem_cons_self ..) e he
        simp only [Extent.top] at hbefore
        omega
    rw [headIsAbove, head_cons hz]
    simpa using hle

/-- The entry at an address is on one list only. -/
theorem next_of_ne (h : p.ListsInOrder) {j : ℕ} (hi : i < p.heapFreeListCount)
    (hj : j < p.heapFreeListCount) (hne : j ≠ i) (he : e ∈ p.entries i) :
    (p.heapFreeLists j).next (.entry e.base) = [] := by
  have hbase : ∀ a ∈ (p.heapFreeLists j).freeList, decide (a.base ≠ e.base) = true := by
    intro a ha
    have hposa := (h.each j hj).size_pos a ha
    have hpose := (h.each i hi).size_pos e he
    rw [decide_eq_true_eq]
    obtain hlt | hlt := Nat.lt_or_gt_of_ne hne
    · have := h.across j i hlt hi a ha e he
      simp only [Extent.top] at this
      omega
    · have := h.across i j hlt hj e he a ha
      simp only [Extent.top] at this
      omega
  rw [FreeList.next, List.dropWhile_eq_nil_iff.2 hbase]
  rfl

/-- The link of an entry leads to the one behind it on its list. -/
theorem nextOf_eq (h : p.ListsInOrder) (hi : i < p.heapFreeListCount)
    (hlist : p.entries i = xs ++ e :: ys) : p.nextOf e.base = ys.head?.map Extent.base := by
  have hmem : e ∈ p.entries i := by simp [hlist]
  have hnext : (p.heapFreeLists i).next (.entry e.base) = ys := by
    have hsplit : (p.heapFreeLists i).freeList = xs ++ [e] ++ ys := by simpa [entries] using hlist
    have hbehind := (p.heapFreeLists i).next_last (h.each i hi) hsplit
    rwa [Link.last_concat] at hbehind
  have hsome : ∀ j < p.heapFreeListCount, ∀ b,
      ((p.heapFreeLists j).next (.entry e.base)).head?.map Extent.base = some b →
        ys.head?.map Extent.base = some b := by
    intro j hj b hb
    by_cases hne : j = i
    · rwa [hne, hnext] at hb
    · rw [h.next_of_ne hi hj hne hmem] at hb
      cases hb
  cases hfound : p.nextOf e.base with
  | some b =>
    obtain ⟨j, hj, hb⟩ := List.exists_of_findSome?_eq_some hfound
    exact (hsome j (List.mem_range.1 hj) b hb).symm
  | none =>
    have := List.findSome?_eq_none_iff.1 hfound i (List.mem_range.2 hi)
    rwa [hnext, eq_comm] at this

theorem startFreeListIndex_le (h : p.ListsInOrder) (hi : i < p.heapFreeListCount)
    (he : e ∈ p.entries i) (index : Option ℕ) :
    p.startFreeListIndex e.base (index.map fun _ => i) ≤ i := by
  cases index with
  | none => exact Nat.zero_le i
  | some k =>
    rw [Option.map_some, startFreeListIndex, if_neg (by omega), h.headIsAbove_of_le le_rfl hi he]
    exact le_rfl

/-- From the last entry of a list the pool leads on to the next list that has one, from
wherever up to this list the search begins. -/
theorem find_headIsAbove (h : p.ListsInOrder) (hi : i < p.heapFreeListCount)
    (he : e ∈ p.entries i) {start : ℕ} (hstart : start ≤ i) {j : ℕ} (hij : i < j)
    (hj : j < p.heapFreeListCount) (hne : p.entries j ≠ [])
    (hempty : ∀ k, i + 1 ≤ k → k < j → p.entries k = []) :
    (List.range' start (p.heapFreeListCount - start)).find?
      (fun k => p.headIsAbove k e.base) = some j := by
  rw [List.find?_range'_eq_some]
  refine ⟨h.headIsAbove_of_lt hij hj he hne, List.mem_range'_1.2 ⟨by omega, by omega⟩, ?_⟩
  intro k hk hkj
  have hbelow : p.headIsAbove k e.base = false := by
    by_cases hki : k ≤ i
    · exact h.headIsAbove_of_le hki hi he
    · exact headIsAbove_nil (hempty k (by omega) hkj)
  simp [hbelow]

theorem find_headIsAbove_none (h : p.ListsInOrder) (hi : i < p.heapFreeListCount)
    (he : e ∈ p.entries i) {start : ℕ} (hstart : start ≤ i)
    (hempty : ∀ k, i + 1 ≤ k → k < p.heapFreeListCount → p.entries k = []) :
    (List.range' start (p.heapFreeListCount - start)).find?
      (fun k => p.headIsAbove k e.base) = none := by
  rw [List.find?_eq_none]
  intro k hk
  obtain ⟨-, hk⟩ := List.mem_range'_1.1 hk
  have hbelow : p.headIsAbove k e.base = false := by
    by_cases hki : k ≤ i
    · exact h.headIsAbove_of_le hki hi he
    · exact headIsAbove_nil (hempty k (by omega) (by omega))
  simp [hbelow]

/-- The walk from an entry on meets the rest of its list and the lists behind it; an index
that goes along is that of the entry's list. -/
theorem walk_from (h : p.ListsInOrder) {index : Option ℕ} (fuel : ℕ) :
    ∀ (i : ℕ) (xs : List Extent) (e : Extent) (ys : List Extent), i < p.heapFreeListCount →
      p.entries i = xs ++ e :: ys → (ys ++ p.entriesFrom (i + 1)).length + 1 < fuel →
        p.freeStartingAddrs fuel (some e.base, index.map fun _ => i) =
          some ((e :: (ys ++ p.entriesFrom (i + 1))).map Extent.base) := by
  -- each step either stays on the list or goes to the next one that has an entry
  induction fuel with
  | zero =>
    intro i xs e ys hi hlist hfuel
    omega
  | succ fuel ih =>
    intro i xs e ys hi hlist hfuel
    have he : e ∈ p.entries i := by simp [hlist]
    have hnext := h.nextOf_eq hi hlist
    rw [freeStartingAddrs]
    unfold getNextFreeStartingAddr
    rw [hnext]
    cases ys with
    | cons y ys =>
      have hrest := ih i (xs ++ [e]) y ys hi (by simp [hlist]) (by simp at hfuel ⊢; omega)
      simp only [List.head?_cons, Option.map_some]
      rw [hrest]
      rfl
    | nil =>
      have hstart := h.startFreeListIndex_le hi he index
      simp only [List.head?_nil, Option.map_none, List.nil_append] at hfuel ⊢
      obtain ⟨hnil, hempty⟩ | ⟨j, z, zs, hij, hj, hz, hempty, hrest⟩ := p.entriesFrom_cases (i + 1)
      · rw [h.find_headIsAbove_none hi he hstart hempty, hnil]
        cases fuel with
        | zero => omega
        | succ fuel => rfl
      · rw [h.find_headIsAbove hi he hstart hij hj (by simp [hz]) hempty, hrest]
        have := ih j [] z zs hj hz (by rw [hrest] at hfuel; simp at hfuel ⊢; omega)
        simp only [Option.map_map, head_cons hz]
        rw [show ((fun _ => j) ∘ fun _ => i : ℕ → ℕ) = fun _ => j from rfl, this]
        rfl

/-- In lists that are in order, the walk meets every entry once and in order. -/
theorem walksAll (h : p.ListsInOrder) : p.WalksAll := by
  intro index
  rw [allEntries_eq_entriesFrom, getFirstFreeStartingAddr, List.range_eq_range']
  obtain ⟨hnil, hempty⟩ | ⟨j, z, zs, -, hj, hz, hempty, hrest⟩ := p.entriesFrom_cases 0
  · have hfind : (List.range' 0 p.heapFreeListCount).find?
        (fun i => decide (p.entries i ≠ [])) = none := by
      rw [List.find?_eq_none]
      intro k hk
      simp [hempty k (Nat.zero_le k) (by simpa using List.mem_range'_1.1 hk)]
    rw [hfind, hnil]
    rfl
  · have hfind : (List.range' 0 p.heapFreeListCount).find?
        (fun i => decide (p.entries i ≠ [])) = some j := by
      rw [List.find?_range'_eq_some]
      refine ⟨by simp [hz], List.mem_range'_1.2 ⟨Nat.zero_le j, by omega⟩, fun k _ hk => ?_⟩
      simp [hempty k (Nat.zero_le k) hk]
    rw [hfind, hrest]
    simp only [head_cons hz]
    exact h.walk_from _ j [] z zs hj hz (by simp)

end ListsInOrder

end OMR.GC.SplitPool
