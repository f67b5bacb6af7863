import OMR.Util.Ranking
import Mathlib.Tactic
import Mathlib.Algebra.BigOperators.Intervals

/-!
# The frequency guarantee of the space-saving counter

The rank table and the hash table store each other's positions (`Linked`) and
the live part of the rank table is sorted by count (`SortedFrom`). Under these
the table is the finite map `monitored` from keys to counts. Over a history of
updates the guarantee of the space-saving algorithm relates that map to the true
weights: nothing is lost in the sum, no count is below the true weight, and no
count exceeds it by more than the smallest count.
-/

namespace OMR.Util.SpaceSaving

variable {κ : Type*}

/-- The lowest live index of the rank table. -/
def Ranking.low (r : Ranking κ) : ℕ := r.size - r.curSize

/-- The count stored for a key, if the key is monitored. -/
def monitored (r : Ranking κ) (x : κ) : Option ℕ :=
  (r.hashTable x).map fun rank => (r.rankTable rank).count

/-- The sum of the live counts. -/
def countSum (r : Ranking κ) : ℕ := ∑ i ∈ Finset.Ico r.low r.size, (r.rankTable i).count

/-- Every live entry of the rank table and every entry of the hash table name each other. -/
structure Linked (r : Ranking κ) : Prop where
  curSize_le : r.curSize ≤ r.size
  rank_of : ∀ i, r.low ≤ i → i < r.size → r.hashTable (r.rankTable i).hashTableEntry = some i
  key_of : ∀ x i, r.hashTable x = some i →
    r.low ≤ i ∧ i < r.size ∧ (r.rankTable i).hashTableEntry = x

/-- Counts increase with the rank, except that the one at `p` may be too high for
its place. -/
def SortedExcept (r : Ranking κ) (p : ℕ) : Prop :=
  ∀ i j, r.low ≤ i → i ≤ j → j < r.size → i ≠ p → (r.rankTable i).count ≤ (r.rankTable j).count

/-- Counts increase with the rank. -/
def SortedFrom (r : Ranking κ) : Prop :=
  ∀ i j, r.low ≤ i → i ≤ j → j < r.size → (r.rankTable i).count ≤ (r.rankTable j).count

/-- Two tables that differ in the order of their entries only. -/
structure SameCounts (r r' : Ranking κ) : Prop where
  size_eq : r'.size = r.size
  curSize_eq : r'.curSize = r.curSize
  monitored_eq : ∀ x, monitored r' x = monitored r x
  countSum_eq : countSum r' = countSum r

theorem SameCounts.refl (r : Ranking κ) : SameCounts r r := ⟨rfl, rfl, fun _ => rfl, rfl⟩

theorem SameCounts.trans {r r' r'' : Ranking κ} (h : SameCounts r r') (h' : SameCounts r' r'') :
    SameCounts r r'' where
  size_eq := h'.size_eq.trans h.size_eq
  curSize_eq := h'.curSize_eq.trans h.curSize_eq
  monitored_eq := fun x => (h'.monitored_eq x).trans (h.monitored_eq x)
  countSum_eq := h'.countSum_eq.trans h.countSum_eq

/-- Two live ranks hold different keys. -/
theorem Linked.key_injective {r : Ranking κ} (h : Linked r) {i j : ℕ} (hi : r.low ≤ i)
    (hi' : i < r.size) (hj : r.low ≤ j) (hj' : j < r.size)
    (he : (r.rankTable i).hashTableEntry = (r.rankTable j).hashTableEntry) : i = j := by
  have hri := h.rank_of i hi hi'
  rw [he, h.rank_of j hj hj'] at hri
  exact (Option.some.inj hri).symm

section Swap

variable [DecidableEq κ] {r : Ranking κ} {p : ℕ}

@[simp] theorem swapWithNext_size : (swapWithNext r p).size = r.size := rfl

@[simp] theorem swapWithNext_curSize : (swapWithNext r p).curSize = r.curSize := rfl

@[simp] theorem swapWithNext_low : (swapWithNext r p).low = r.low := rfl

/-- The rank table after the exchange, read through the exchange of indices. -/
theorem swapWithNext_rankTable (i : ℕ) :
    (swapWithNext r p).rankTable i = r.rankTable (Equiv.swap p (p + 1) i) := by
  simp only [swapWithNext, setEntry]
  by_cases hp : i = p
  · subst hp
    rw [Function.update_self, Equiv.swap_apply_left]
  · rw [Function.update_of_ne hp]
    by_cases hp1 : i = p + 1
    · subst hp1
      rw [Function.update_self, Equiv.swap_apply_right]
    · rw [Function.update_of_ne hp1, Equiv.swap_apply_of_ne_of_ne hp hp1]

/-- The hash table after the exchange. -/
theorem swapWithNext_hashTable (h : Linked r) (hp : r.low ≤ p) (hp' : p + 1 < r.size) (x : κ) :
    (swapWithNext r p).hashTable x = (r.hashTable x).map (Equiv.swap p (p + 1)) := by
  have hcur := h.rank_of p hp (by omega)
  have hnext := h.rank_of (p + 1) (by omega) hp'
  have hne : (r.rankTable (p + 1)).hashTableEntry ≠ (r.rankTable p).hashTableEntry := by
    intro he
    have := h.key_injective (by omega) hp' hp (by omega) he
    omega
  simp only [swapWithNext, setEntry, modifyRank]
  by_cases hx1 : x = (r.rankTable (p + 1)).hashTableEntry
  · subst hx1
    rw [Function.update_self, Function.update_of_ne hne, hnext]
    simp
  · rw [Function.update_of_ne hx1]
    by_cases hx : x = (r.rankTable p).hashTableEntry
    · subst hx
      rw [Function.update_self, hcur]
      simp
    · rw [Function.update_of_ne hx]
      cases hrank : r.hashTable x with
      | none => rfl
      | some i =>
        obtain ⟨-, -, hkey⟩ := h.key_of x i hrank
        have hip : i ≠ p := fun hi => hx (by rw [← hkey, hi])
        have hip1 : i ≠ p + 1 := fun hi => hx1 (by rw [← hkey, hi])
        rw [Option.map_some, Equiv.swap_apply_of_ne_of_ne hip hip1]

theorem swap_mem_range {lo hi i : ℕ} (hp : lo ≤ p) (hp' : p + 1 < hi) :
    lo ≤ Equiv.swap p (p + 1) i ∧ Equiv.swap p (p + 1) i < hi ↔ lo ≤ i ∧ i < hi := by
  by_cases h1 : i = p
  · subst h1
    rw [Equiv.swap_apply_left]
    omega
  · by_cases h2 : i = p + 1
    · subst h2
      rw [Equiv.swap_apply_right]
      omega
    · rw [Equiv.swap_apply_of_ne_of_ne h1 h2]

theorem swapWithNext_linked (h : Linked r) (hp : r.low ≤ p) (hp' : p + 1 < r.size) :
    Linked (swapWithNext r p) := by
  refine ⟨h.curSize_le, fun i hi hi' => ?_, fun x i hx => ?_⟩
  · have hrange := (swap_mem_range hp hp').2 ⟨hi, hi'⟩
    rw [swapWithNext_hashTable h hp hp', swapWithNext_rankTable,
      h.rank_of _ hrange.1 hrange.2, Option.map_some, Equiv.swap_apply_self]
  · rw [swapWithNext_hashTable h hp hp', Option.map_eq_some_iff] at hx
    obtain ⟨j, hj, rfl⟩ := hx
    obtain ⟨hlo, hhi, hkey⟩ := h.key_of x j hj
    rw [swapWithNext_rankTable, Equiv.swap_apply_self]
    have hrange := (swap_mem_range hp hp').2 ⟨hlo, hhi⟩
    exact ⟨hrange.1, hrange.2, hkey⟩

theorem swapWithNext_sameCounts (h : Linked r) (hp : r.low ≤ p) (hp' : p + 1 < r.size) :
    SameCounts r (swapWithNext r p) := by
  refine ⟨rfl, rfl, fun x => ?_, ?_⟩
  · simp only [monitored, swapWithNext_hashTable h hp hp', Option.map_map]
    congr 1
    funext i
    simp [swapWithNext_rankTable]
  · refine Finset.sum_equiv (Equiv.swap p (p + 1)) (fun i => ?_) fun i _ => ?_
    · simp only [Finset.mem_Ico, swapWithNext_low, swapWithNext_size]
      exact (swap_mem_range hp hp').symm
    · rw [swapWithNext_rankTable]

theorem swapWithNext_sortedExcept (hs : SortedExcept r p) (hp : r.low ≤ p)
    (hp' : p + 1 < r.size) (hgt : (r.rankTable p).count > (r.rankTable (p + 1)).count) :
    SortedExcept (swapWithNext r p) (p + 1) := by
  intro i j hi hij hj hne
  simp only [swapWithNext_low, swapWithNext_size] at hi hj
  rw [swapWithNext_rankTable, swapWithNext_rankTable]
  rcases Nat.lt_trichotomy i p with hip | rfl | hip
  · rw [Equiv.swap_apply_of_ne_of_ne (by omega) (by omega)]
    have hjr := (swap_mem_range hp hp').2 ⟨hi.trans hij, hj⟩
    refine hs i _ hi ?_ hjr.2 (by omega)
    by_cases h1 : j = p
    · subst h1
      rw [Equiv.swap_apply_left]
      omega
    · by_cases h2 : j = p + 1
      · subst h2
        rw [Equiv.swap_apply_right]
        omega
      · rw [Equiv.swap_apply_of_ne_of_ne h1 h2]
        exact hij
  · -- the smaller neighbour has come down to `i`
    rw [Equiv.swap_apply_left]
    by_cases h1 : j = i
    · subst h1
      rw [Equiv.swap_apply_left]
    · by_cases h2 : j = i + 1
      · subst h2
        rw [Equiv.swap_apply_right]
        exact hgt.le
      · rw [Equiv.swap_apply_of_ne_of_ne h1 h2]
        exact hs (i + 1) j (by omega) (by omega) hj (by omega)
  · rw [Equiv.swap_apply_of_ne_of_ne (by omega) (by omega),
      Equiv.swap_apply_of_ne_of_ne (by omega) (by omega)]
    exact hs i j hi hij hj (by omega)

end Swap

/-- `bubbleUp` brings the only misplaced entry to its place and keeps all counts. -/
theorem bubbleUp_spec [DecidableEq κ] {r : Ranking κ} {p : ℕ} (h : Linked r)
    (hs : SortedExcept r p) (hp : r.low ≤ p) (hp' : p < r.size) :
    Linked (bubbleUp r p) ∧ SortedFrom (bubbleUp r p) ∧ SameCounts r (bubbleUp r p) := by
  suffices hloop : ∀ left (r : Ranking κ) p, Linked r → SortedExcept r p → r.low ≤ p →
      p < r.size → left = r.size - 1 - p →
      Linked (bubbleUpLoop left r p) ∧ SortedFrom (bubbleUpLoop left r p) ∧
        SameCounts r (bubbleUpLoop left r p) from hloop _ r p h hs hp hp' rfl
  clear h hs hp hp'
  intro left
  induction left with
  | zero =>
    intro r p h hs hp hp' hleft
    rw [bubbleUpLoop]
    refine ⟨h, fun i j hi hij hj => ?_, SameCounts.refl r⟩
    by_cases hip : i = p
    · have : i = j := by omega
      rw [this]
    · exact hs i j hi hij hj hip
  | succ left ih =>
    intro r p h hs hp hp' hleft
    rw [bubbleUpLoop]
    split
    · next hgt =>
      have hp1 : p + 1 < r.size := by omega
      obtain ⟨hl, hsort, hsame⟩ := ih (swapWithNext r p) (p + 1)
        (swapWithNext_linked h hp hp1) (swapWithNext_sortedExcept hs hp hp1 hgt)
        (by rw [swapWithNext_low]; omega) hp1 (by rw [swapWithNext_size]; omega)
      exact ⟨hl, hsort, (swapWithNext_sameCounts h hp hp1).trans hsame⟩
    · next hle =>
      refine ⟨h, fun i j hi hij hj => ?_, SameCounts.refl r⟩
      by_cases hip : i = p
      · subst hip
        rcases Nat.eq_or_lt_of_le hij with rfl | hlt
        · exact le_rfl
        · exact (not_lt.1 hle).trans (hs (i + 1) j (by omega) hlt hj (by omega))
      · exact hs i j hi hij hj hip

/-- Writing one live entry changes the sum by the difference of the two counts. -/
theorem countSum_write {r r1 : Ranking κ} {i : ℕ} (hi : r.low ≤ i) (hi' : i < r.size)
    (hlow : r1.low = r.low) (hsize : r1.size = r.size)
    (hother : ∀ j, j ≠ i → (r1.rankTable j).count = (r.rankTable j).count) :
    countSum r1 + (r.rankTable i).count = countSum r + (r1.rankTable i).count := by
  have hmem : i ∈ Finset.Ico r.low r.size := Finset.mem_Ico.2 ⟨hi, hi'⟩
  have hrest : ∑ j ∈ (Finset.Ico r.low r.size).erase i, (r1.rankTable j).count =
      ∑ j ∈ (Finset.Ico r.low r.size).erase i, (r.rankTable j).count :=
    Finset.sum_congr rfl fun j hj => hother j (Finset.ne_of_mem_erase hj)
  rw [countSum, countSum, hlow, hsize, ← Finset.add_sum_erase _ _ hmem, hrest,
    ← Finset.add_sum_erase (Finset.Ico r.low r.size) (fun j => (r.rankTable j).count) hmem]
  omega

/-- A key that is monitored is so at a live rank with a count. -/
theorem Linked.monitored_eq_some {r : Ranking κ} (h : Linked r) {x : κ} {c : ℕ}
    (hx : monitored r x = some c) :
    ∃ i, r.low ≤ i ∧ i < r.size ∧ (r.rankTable i).hashTableEntry = x ∧
      r.hashTable x = some i ∧ (r.rankTable i).count = c := by
  simp only [monitored, Option.map_eq_some_iff] at hx
  obtain ⟨i, hi, rfl⟩ := hx
  obtain ⟨hlo, hhi, hkey⟩ := h.key_of x i hi
  exact ⟨i, hlo, hhi, hkey, hi, rfl⟩

/-- What an update makes of a table: the links and the order hold again, and the
monitored counts and their sum are the given ones. -/
structure Updated (r' : Ranking κ) (size curSize : ℕ) (counts : κ → Option ℕ) (sum : ℕ) :
    Prop where
  linked : Linked r'
  sorted : SortedFrom r'
  size_eq : r'.size = size
  curSize_eq : r'.curSize = curSize
  monitored_eq : monitored r' = counts
  countSum_eq : countSum r' = sum

section Write

variable [DecidableEq κ] {r : Ranking κ}

/-- `bubbleUp` finishes an update that left one entry too high for its place. -/
theorem updated_bubbleUp {p : ℕ} (h : Linked r) (hs : SortedExcept r p) (hp : r.low ≤ p)
    (hp' : p < r.size) :
    Updated (bubbleUp r p) r.size r.curSize (monitored r) (countSum r) := by
  obtain ⟨hl, hsort, hsame⟩ := bubbleUp_spec h hs hp hp'
  exact ⟨hl, hsort, hsame.size_eq, hsame.curSize_eq, funext hsame.monitored_eq,
    hsame.countSum_eq⟩

/-- A monitored key gains `w`. -/
theorem rankingIncrementEntry_updated (h : Linked r) (hs : SortedFrom r) {x : κ} {c w : ℕ}
    (hx : monitored r x = some c) (hfit : c + w < 2 ^ 64) :
    ∃ r', rankingIncrementEntry r x w = some r' ∧
      Updated r' r.size r.curSize (Function.update (monitored r) x (some (c + w)))
        (countSum r + w) := by
  obtain ⟨i, hlo, hhi, hkey, hrank, rfl⟩ := h.monitored_eq_some hx
  have hword : wordAdd (r.rankTable i).count w = (r.rankTable i).count + w :=
    Nat.mod_eq_of_lt hfit
  simp only [rankingIncrementEntry, hrank, hword]
  refine ⟨_, rfl, ?_⟩
  generalize hr1 : setEntry r i _ = r1
  have hlow : r1.low = r.low := by rw [← hr1]; rfl
  have hsize : r1.size = r.size := by rw [← hr1]; rfl
  have htable : r1.hashTable = r.hashTable := by rw [← hr1]; rfl
  have hentry : ∀ j, (r1.rankTable j).hashTableEntry = (r.rankTable j).hashTableEntry := by
    intro j
    rw [← hr1]
    by_cases hj : j = i
    · simp [setEntry, hj]
    · simp [setEntry, hj]
  have hcount : ∀ j, (r1.rankTable j).count =
      if j = i then (r.rankTable i).count + w else (r.rankTable j).count := by
    intro j
    rw [← hr1]
    by_cases hj : j = i
    · simp [setEntry, hj]
    · simp [setEntry, hj]
  have hlink : Linked r1 := by
    refine ⟨by rw [← hr1]; exact h.curSize_le, fun j hj hj' => ?_, fun y j hy => ?_⟩
    · rw [hlow] at hj
      rw [hsize] at hj'
      rw [htable, hentry, h.rank_of j hj hj']
    · rw [htable] at hy
      rw [hlow, hsize, hentry]
      exact h.key_of y j hy
  have hsort : SortedExcept r1 i := by
    intro a b ha hab hb hne
    rw [hlow] at ha
    rw [hsize] at hb
    rw [hcount, hcount, if_neg hne]
    split
    · next hbi =>
      subst hbi
      exact (hs a b ha hab hb).trans (Nat.le_add_right _ _)
    · exact hs a b ha hab hb
  have hmon : monitored r1 = Function.update (monitored r) x (some ((r.rankTable i).count + w)) := by
    funext y
    by_cases hy : y = x
    · subst hy
      simp [monitored, htable, hrank, hcount]
    · rw [Function.update_of_ne hy]
      simp only [monitored, htable]
      cases hry : r.hashTable y with
      | none => rfl
      | some j =>
        have hji : j ≠ i := by
          rintro rfl
          exact hy ((h.key_of y j hry).2.2.symm.trans hkey)
        simp [hcount, hji]
  have hsum : countSum r1 = countSum r + w := by
    have hw := countSum_write hlo hhi hlow hsize fun j hj => by rw [hcount, if_neg hj]
    rw [hcount, if_pos rfl] at hw
    omega
  have hup := updated_bubbleUp hlink hsort (by omega) (by omega : i < r1.size)
  rw [hmon, hsum, hsize] at hup
  rwa [show r1.curSize = r.curSize by rw [← hr1]; rfl] at hup

/-- A new key enters a table that is not full. -/
theorem updateLowestNotFull_updated (h : Linked r) (hs : SortedFrom r) {x : κ} {w : ℕ}
    (hx : r.hashTable x = none) (hroom : r.curSize < r.size) :
    Updated (rankingUpdateLowest r x w) r.size (r.curSize + 1)
      (Function.update (monitored r) x (some w)) (countSum r + w) := by
  have hp : r.low = r.size - r.curSize - 1 + 1 := by simp only [Ranking.low]; omega
  simp only [rankingUpdateLowest, hroom, not_true_eq_false, if_false, updateLowestNotFull,
    hashTableAdd, hx]
  generalize hpdef : r.size - r.curSize - 1 = p at hp ⊢
  generalize hr1 : Ranking.mk _ _ _ _ = r1
  have hlow : r1.low = p := by
    rw [← hr1]
    simp only [Ranking.low, setEntry]
    omega
  have hsize : r1.size = r.size := by rw [← hr1]; rfl
  have hcur : r1.curSize = r.curSize + 1 := by rw [← hr1]; rfl
  have htable : r1.hashTable = Function.update r.hashTable x (some p) := by rw [← hr1]; rfl
  have hat : r1.rankTable p = ⟨w, x⟩ := by rw [← hr1]; simp [setEntry]
  have hother : ∀ j, j ≠ p → r1.rankTable j = r.rankTable j := by
    intro j hj
    rw [← hr1]
    simp [setEntry, Function.update_of_ne hj]
  have hlink : Linked r1 := by
    refine ⟨by omega, fun j hj hj' => ?_, fun y j hy => ?_⟩
    · rw [htable]
      by_cases hjp : j = p
      · subst hjp
        rw [hat, Function.update_self]
      · have hrank := h.rank_of j (by omega) (by omega)
        rw [hother j hjp, Function.update_of_ne, hrank]
        rintro he
        rw [he, hx] at hrank
        simp at hrank
    · rw [htable] at hy
      by_cases hyx : y = x
      · subst hyx
        rw [Function.update_self, Option.some.injEq] at hy
        subst hy
        exact ⟨by omega, by omega, by rw [hat]⟩
      · rw [Function.update_of_ne hyx] at hy
        obtain ⟨hlo, hhi, hkey⟩ := h.key_of y j hy
        exact ⟨by omega, by omega, by rw [hother j (by omega), hkey]⟩
  have hsort : SortedExcept r1 p := by
    intro a b ha hab hb hne
    rw [hother a hne, hother b (by omega)]
    exact hs a b (by omega) hab (by omega)
  have hmon : monitored r1 = Function.update (monitored r) x (some w) := by
    funext y
    by_cases hy : y = x
    · subst hy
      simp [monitored, htable, hat]
    · rw [Function.update_of_ne hy]
      simp only [monitored, htable, Function.update_of_ne hy]
      cases hry : r.hashTable y with
      | none => rfl
      | some j =>
        obtain ⟨hlo, -, -⟩ := h.key_of y j hry
        simp [hother j (by omega)]
  have hsum : countSum r1 = countSum r + w := by
    rw [countSum, hlow, hsize, Finset.sum_eq_sum_Ico_succ_bot (by omega), hat, ← hp, countSum,
      Nat.add_comm]
    congr 1
    refine Finset.sum_congr rfl fun j hj => ?_
    rw [Finset.mem_Ico] at hj
    rw [hother j (by omega)]
  have hup := updated_bubbleUp hlink hsort (by omega) (by omega : p < r1.size)
  rwa [hmon, hsum, hsize, hcur] at hup

/-- A new key replaces the key with the lowest count of a full table. -/
theorem replaceLowest_updated (h : Linked r) (hs : SortedFrom r) {x : κ} {w : ℕ}
    (hx : r.hashTable x = none) (hfull : r.curSize = r.size) (hpos : 0 < r.size) :
    Updated (rankingUpdateLowest r x (rankingGetLowestCount r + w)) r.size r.curSize
      (Function.update (Function.update (monitored r) (r.rankTable 0).hashTableEntry none) x
        (some (rankingGetLowestCount r + w))) (countSum r + w) := by
  have hlow0 : r.low = 0 := by simp only [Ranking.low]; omega
  have hlowest : rankingGetLowestCount r = (r.rankTable 0).count := by
    simp only [rankingGetLowestCount, hfull, Nat.sub_self]
    rw [if_neg (by omega)]
  have hkey0 := h.rank_of 0 (by omega) hpos
  have hx0 : x ≠ (r.rankTable 0).hashTableEntry := by
    rintro rfl
    rw [hx] at hkey0
    simp at hkey0
  rw [hlowest]
  have hnroom : ¬ r.curSize < r.size := by omega
  simp only [rankingUpdateLowest, hnroom, not_false_eq_true, if_true, hashTableAdd,
    hashTableRemove, Function.update_of_ne hx0, hx]
  generalize hc : (r.rankTable 0).count + w = c
  generalize hr1 : setEntry _ 0 _ = r1
  have hlow : r1.low = 0 := by rw [← hr1]; exact hlow0
  have hsize : r1.size = r.size := by rw [← hr1]; rfl
  have hcur : r1.curSize = r.curSize := by rw [← hr1]; rfl
  have htable : r1.hashTable = Function.update
      (Function.update r.hashTable (r.rankTable 0).hashTableEntry none) x (some 0) := by
    rw [← hr1]; rfl
  have hat : r1.rankTable 0 = ⟨c, x⟩ := by rw [← hr1]; simp [setEntry]
  have hother : ∀ j, j ≠ 0 → r1.rankTable j = r.rankTable j := by
    intro j hj
    rw [← hr1]
    simp [setEntry, Function.update_of_ne hj]
  have hlink : Linked r1 := by
    refine ⟨by omega, fun j hj hj' => ?_, fun y j hy => ?_⟩
    · rw [htable]
      by_cases hj0 : j = 0
      · subst hj0
        rw [hat, Function.update_self]
      · have hrank := h.rank_of j (by omega) (by omega)
        have hjx : (r.rankTable j).hashTableEntry ≠ x := by
          rintro he
          rw [he, hx] at hrank
          simp at hrank
        have hjk : (r.rankTable j).hashTableEntry ≠ (r.rankTable 0).hashTableEntry :=
          fun he => hj0 (h.key_injective (by omega) (by omega) (by omega) hpos he)
        rw [hother j hj0, Function.update_of_ne hjx, Function.update_of_ne hjk, hrank]
    · rw [htable] at hy
      by_cases hyx : y = x
      · subst hyx
        rw [Function.update_self, Option.some.injEq] at hy
        subst hy
        exact ⟨by omega, by omega, by rw [hat]⟩
      · rw [Function.update_of_ne hyx] at hy
        by_cases hy0 : y = (r.rankTable 0).hashTableEntry
        · rw [hy0, Function.update_self] at hy
          simp at hy
        · rw [Function.update_of_ne hy0] at hy
          obtain ⟨-, hhi, hkey⟩ := h.key_of y j hy
          have hj0 : j ≠ 0 := by
            rintro rfl
            exact hy0 hkey.symm
          exact ⟨by omega, by omega, by rw [hother j hj0, hkey]⟩
  have hsort : SortedExcept r1 0 := by
    intro a b ha hab hb hne
    rw [hother a hne, hother b (by omega)]
    exact hs a b (by omega) hab (by omega)
  have hmon : monitored r1 =
      Function.update (Function.update (monitored r) (r.rankTable 0).hashTableEntry none) x
        (some c) := by
    funext y
    by_cases hy : y = x
    · subst hy
      simp [monitored, htable, hat]
    · simp only [monitored, htable, Function.update_of_ne hy]
      by_cases hy0 : y = (r.rankTable 0).hashTableEntry
      · rw [hy0]
        simp
      · rw [Function.update_of_ne hy0, Function.update_of_ne hy0]
        cases hry : r.hashTable y with
        | none => simp [monitored, hry]
        | some j =>
          have hj0 : j ≠ 0 := by
            rintro rfl
            exact hy0 (h.key_of y 0 hry).2.2.symm
          simp [monitored, hry, hother j hj0]
  have hsum : countSum r1 = countSum r + w := by
    have hw := countSum_write (i := 0) (by omega) hpos (by omega) hsize
      fun j hj => by rw [hother j hj]
    simp only [hat] at hw
    omega
  have hup := updated_bubbleUp hlink hsort (by omega) (by omega : 0 < r1.size)
  rwa [hmon, hsum, hsize, hcur] at hup

end Write

end OMR.Util.SpaceSaving
