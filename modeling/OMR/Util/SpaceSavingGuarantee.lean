import OMR.Util.SpaceSaving

/-!
# The space-saving guarantee

What the counts of `OMR.Util.Ranking` say about a history of updates: they sum to
its total weight, bound every key's true weight from above, and exceed it by no
more than the lowest count.
-/

namespace OMR.Util.SpaceSaving

variable {κ : Type*}

/-- The total weight of a history of updates. -/
def totalWeight (hist : List (κ × ℕ)) : ℕ := (hist.map Prod.snd).sum

/-- The true weight of a key. -/
def trueWeight [DecidableEq κ] (hist : List (κ × ℕ)) (x : κ) : ℕ :=
  totalWeight (hist.filter fun u => u.1 = x)

/-- The table after a history of updates of a new table with `size` entries. -/
def replay [DecidableEq κ] (size : ℕ) (memory : ℕ → RankTableEntry κ) (hist : List (κ × ℕ)) :
    Ranking κ :=
  hist.foldl (fun r u => spaceSavingUpdate r u.1 u.2) (rankingNew size memory)

/-- What an absent key may have lost and a present one may have gained: the lowest
count once the table is full, nothing before. -/
def slack (r : Ranking κ) : ℕ :=
  if r.curSize = r.size then rankingGetLowestCount r else 0

/-- The space-saving invariant of a table after a history. -/
structure Guarantee [DecidableEq κ] (r : Ranking κ) (size : ℕ) (hist : List (κ × ℕ)) : Prop where
  linked : Linked r
  sorted : SortedFrom r
  size_eq : r.size = size
  countSum_eq : countSum r = totalWeight hist
  lower : ∀ x c, monitored r x = some c → trueWeight hist x ≤ c
  upper : ∀ x c, monitored r x = some c → c ≤ trueWeight hist x + slack r
  absent : ∀ x, monitored r x = none → trueWeight hist x ≤ slack r
  seen : ∀ x, monitored r x ≠ none → x ∈ hist.map Prod.fst

@[simp] theorem totalWeight_append_singleton (hist : List (κ × ℕ)) (u : κ × ℕ) :
    totalWeight (hist ++ [u]) = totalWeight hist + u.2 := by
  simp [totalWeight]

theorem trueWeight_append_self [DecidableEq κ] (hist : List (κ × ℕ)) (x : κ) (w : ℕ) :
    trueWeight (hist ++ [(x, w)]) x = trueWeight hist x + w := by
  simp [trueWeight, totalWeight]

theorem trueWeight_append_of_ne [DecidableEq κ] (hist : List (κ × ℕ)) {x y : κ} (w : ℕ)
    (h : x ≠ y) : trueWeight (hist ++ [(x, w)]) y = trueWeight hist y := by
  simp [trueWeight, totalWeight, h]

section Lowest

variable {r : Ranking κ}

/-- The lowest count is a lower bound of all monitored counts. -/
theorem lowest_le_monitored (h : Linked r) (hs : SortedFrom r) {x : κ} {c : ℕ}
    (hx : monitored r x = some c) : rankingGetLowestCount r ≤ c := by
  obtain ⟨i, hlo, hhi, -, -, rfl⟩ := h.monitored_eq_some hx
  have hcur : r.curSize ≠ 0 := by
    simp only [Ranking.low] at hlo
    omega
  rw [rankingGetLowestCount, if_neg hcur]
  exact hs _ i le_rfl hlo hhi

/-- Some key has the lowest count of a non-empty table. -/
theorem exists_monitored_lowest (h : Linked r) (hcur : r.curSize ≠ 0) :
    ∃ x, monitored r x = some (rankingGetLowestCount r) := by
  have hcs := h.curSize_le
  have hrank := h.rank_of r.low le_rfl (by simp only [Ranking.low]; omega)
  refine ⟨(r.rankTable r.low).hashTableEntry, ?_⟩
  rw [monitored, hrank, Option.map_some, rankingGetLowestCount, if_neg hcur]
  rfl

/-- The lowest count of a full table, taken once for every entry, is at most the sum. -/
theorem size_mul_lowest_le_countSum (h : Linked r) (hs : SortedFrom r) :
    r.curSize * rankingGetLowestCount r ≤ countSum r := by
  have hcs := h.curSize_le
  have hcard : (Finset.Ico r.low r.size).card = r.curSize := by
    rw [Nat.card_Ico, Ranking.low]
    omega
  rw [← hcard, ← smul_eq_mul]
  refine Finset.card_nsmul_le_sum _ _ _ fun i hi => ?_
  obtain ⟨hlo, hhi⟩ := Finset.mem_Ico.1 hi
  exact lowest_le_monitored h hs (x := (r.rankTable i).hashTableEntry)
    (by rw [monitored, h.rank_of i hlo hhi, Option.map_some])

/-- No single count exceeds the sum. -/
theorem monitored_le_countSum (h : Linked r) {x : κ} {c : ℕ} (hx : monitored r x = some c) :
    c ≤ countSum r := by
  obtain ⟨i, hlo, hhi, -, -, rfl⟩ := h.monitored_eq_some hx
  exact Finset.single_le_sum (f := fun j => (r.rankTable j).count) (fun _ _ => Nat.zero_le _)
    (Finset.mem_Ico.2 ⟨hlo, hhi⟩)

end Lowest

/-- The slack of a full table only grows when every count is at least the old one. -/
theorem slack_le_of_updated {r r' : Ranking κ} {size : ℕ} {counts : κ → Option ℕ} {sum : ℕ}
    (hup : Updated r' size r.curSize counts sum) (hsize : size = r.size) (hpos : 0 < r.size)
    (hle : ∀ x c, counts x = some c → slack r ≤ c) : slack r ≤ slack r' := by
  by_cases hfull : r.curSize = r.size
  · have hcur : r'.curSize ≠ 0 := by
      rw [hup.curSize_eq]
      omega
    obtain ⟨x, hx⟩ := exists_monitored_lowest hup.linked hcur
    have hslack : slack r' = rankingGetLowestCount r' := by
      rw [slack, if_pos (by rw [hup.curSize_eq, hup.size_eq, hsize, hfull])]
    rw [hslack]
    exact hle x _ (hup.monitored_eq ▸ hx)
  · simp [slack, hfull]

/-- The slack never exceeds a monitored count. -/
theorem slack_le_monitored {r : Ranking κ} (h : Linked r) (hs : SortedFrom r) {x : κ} {c : ℕ}
    (hx : monitored r x = some c) : slack r ≤ c := by
  unfold slack
  split
  · exact lowest_le_monitored h hs hx
  · exact Nat.zero_le c

/-- The counts read by place are in order. -/
theorem kthMostFreqCount_antitone {r : Ranking κ} (h : Linked r) (hs : SortedFrom r) {j k : ℕ}
    (hj : 1 ≤ j) (hjk : j ≤ k) :
    spaceSavingGetKthMostFreqCount r k ≤ spaceSavingGetKthMostFreqCount r j := by
  have hcs := h.curSize_le
  unfold spaceSavingGetKthMostFreqCount
  by_cases hk : k ≤ r.curSize
  · rw [if_pos hk, if_pos (by omega)]
    exact hs _ _ (by simp only [Ranking.low]; omega) (by omega) (by omega)
  · rw [if_neg hk]
    exact Nat.zero_le _

/-- The key of a place is monitored with the count of that place. -/
theorem kthMostFreq_monitored {r : Ranking κ} (h : Linked r) {k : ℕ} (hk : 1 ≤ k)
    (hk' : k ≤ r.curSize) : ∃ x, spaceSavingGetKthMostFreq r k = some x ∧
      monitored r x = some (spaceSavingGetKthMostFreqCount r k) := by
  have hcs := h.curSize_le
  refine ⟨_, if_pos hk', ?_⟩
  rw [monitored, h.rank_of _ (by simp only [Ranking.low]; omega) (by omega), Option.map_some,
    spaceSavingGetKthMostFreqCount, if_pos hk']

/-- A monitored key stands at the place its rank is counted from the top. -/
theorem exists_place {r : Ranking κ} (h : Linked r) {x : κ} (hx : monitored r x ≠ none) :
    ∃ k, 1 ≤ k ∧ k ≤ r.curSize ∧ spaceSavingGetKthMostFreq r k = some x := by
  obtain ⟨c, hc⟩ := Option.ne_none_iff_exists'.1 hx
  obtain ⟨i, hlo, hhi, hkey, -, -⟩ := h.monitored_eq_some hc
  have hcs := h.curSize_le
  simp only [Ranking.low] at hlo
  refine ⟨r.size - i, by omega, by omega, ?_⟩
  rw [spaceSavingGetKthMostFreq, if_pos (by omega), show r.size - (r.size - i) = i by omega, hkey]

section Step

variable [DecidableEq κ] {r r' : Ranking κ} {size curSize sum : ℕ} {hist : List (κ × ℕ)}
  {counts : κ → Option ℕ} {x : κ} {w : ℕ}

/-- The guarantee survives an update that counts the weight for `x` and for any
other key either keeps the count or drops one that the slack covers. -/
theorem guarantee_of_updated (h : Guarantee r size hist)
    (hup : Updated r' r.size curSize counts (countSum r + w)) (hslack : slack r ≤ slack r')
    (hx : ∃ c, counts x = some c ∧ trueWeight hist x + w ≤ c ∧
      c ≤ trueWeight hist x + w + slack r')
    (hother : ∀ y, y ≠ x → counts y = monitored r y ∨
      (counts y = none ∧ trueWeight hist y ≤ slack r')) :
    Guarantee r' size (hist ++ [(x, w)]) := by
  obtain ⟨cx, hcx, hlo, hhi⟩ := hx
  have hkept : ∀ y c, y ≠ x → counts y = some c → monitored r y = some c := by
    intro y c hy hc
    rcases hother y hy with he | ⟨he, -⟩
    · rw [← he, hc]
    · rw [hc] at he
      simp at he
  refine ⟨hup.linked, hup.sorted, hup.size_eq.trans h.size_eq, ?_, ?_, ?_, ?_, ?_⟩
  · rw [hup.countSum_eq, h.countSum_eq, totalWeight_append_singleton]
  all_goals
    rw [hup.monitored_eq]
    intro y
    by_cases hy : y = x
  · subst hy
    intro c hc
    rw [hcx, Option.some.injEq] at hc
    rw [trueWeight_append_self]
    omega
  · intro c hc
    rw [trueWeight_append_of_ne _ _ (Ne.symm hy)]
    exact h.lower y c (hkept y c hy hc)
  · subst hy
    intro c hc
    rw [hcx, Option.some.injEq] at hc
    rw [trueWeight_append_self]
    omega
  · intro c hc
    rw [trueWeight_append_of_ne _ _ (Ne.symm hy)]
    have := h.upper y c (hkept y c hy hc)
    omega
  · subst hy
    intro hc
    rw [hcx] at hc
    simp at hc
  · intro hc
    rw [trueWeight_append_of_ne _ _ (Ne.symm hy)]
    rcases hother y hy with he | ⟨-, hle⟩
    · exact (h.absent y (by rw [← he, hc])).trans hslack
    · exact hle
  · intro _
    simp [hy]
  · intro hc
    obtain ⟨c, hc⟩ := Option.ne_none_iff_exists'.1 hc
    have := h.seen y (by rw [hkept y c hy hc]; simp)
    simp only [List.map_append, List.mem_append]
    exact Or.inl this

/-- `spaceSavingUpdate` keeps the guarantee as long as the total fits a word. -/
theorem spaceSavingUpdate_guarantee (h : Guarantee r size hist) (hpos : 0 < size)
    (hfit : totalWeight hist + w < 2 ^ 64) :
    Guarantee (spaceSavingUpdate r x w) size (hist ++ [(x, w)]) := by
  have hsize := h.size_eq
  have hsum := h.countSum_eq
  cases hmon : monitored r x with
  | some c =>
    have hc := monitored_le_countSum h.linked hmon
    obtain ⟨r', hinc, hup⟩ := rankingIncrementEntry_updated h.linked h.sorted hmon
      (w := w) (by omega)
    have hslack : slack r ≤ slack r' := by
      refine slack_le_of_updated hup rfl (by omega) fun y d hd => ?_
      by_cases hy : y = x
      · subst hy
        rw [Function.update_self, Option.some.injEq] at hd
        have := slack_le_monitored h.linked h.sorted hmon
        omega
      · rw [Function.update_of_ne hy] at hd
        exact slack_le_monitored h.linked h.sorted hd
    simp only [spaceSavingUpdate, hinc]
    refine guarantee_of_updated h hup hslack ⟨c + w, Function.update_self .., ?_, ?_⟩
      fun y hy => Or.inl (Function.update_of_ne hy ..)
    · have := h.lower x c hmon
      omega
    · have := h.upper x c hmon
      omega
  | none =>
    have hnone : r.hashTable x = none := by simpa [monitored] using hmon
    have hinc : rankingIncrementEntry r x w = none := by simp [rankingIncrementEntry, hnone]
    have hlost := h.absent x hmon
    simp only [spaceSavingUpdate, hinc]
    by_cases hfull : r.curSize = r.size
    · have hslack0 : slack r = rankingGetLowestCount r := if_pos hfull
      obtain ⟨z, hz⟩ := exists_monitored_lowest h.linked (by omega)
      have hzle := monitored_le_countSum h.linked hz
      have hword : wordAdd (rankingGetLowestCount r) w = rankingGetLowestCount r + w :=
        Nat.mod_eq_of_lt (by omega)
      have hup := replaceLowest_updated h.linked h.sorted (w := w) hnone hfull (by omega)
      rw [if_pos hfull, hword]
      -- the evicted key has the lowest count, so its weight is covered by the slack
      have hevicted : monitored r (r.rankTable 0).hashTableEntry =
          some (rankingGetLowestCount r) := by
        rw [monitored, h.linked.rank_of 0 (by simp [Ranking.low, hfull]) (by omega),
          Option.map_some, rankingGetLowestCount, if_neg (by omega), hfull, Nat.sub_self]
      have hslack : slack r ≤ slack
          (rankingUpdateLowest r x (rankingGetLowestCount r + w)) := by
        refine slack_le_of_updated hup rfl (by omega) fun y d hd => ?_
        by_cases hy : y = x
        · subst hy
          rw [Function.update_self, Option.some.injEq] at hd
          omega
        · rw [Function.update_of_ne hy] at hd
          by_cases hy0 : y = (r.rankTable 0).hashTableEntry
          · rw [hy0, Function.update_self] at hd
            simp at hd
          · rw [Function.update_of_ne hy0] at hd
            exact slack_le_monitored h.linked h.sorted hd
      refine guarantee_of_updated h hup hslack
        ⟨_, Function.update_self .., by omega, by omega⟩ fun y hy => ?_
      rw [Function.update_of_ne hy]
      by_cases hy0 : y = (r.rankTable 0).hashTableEntry
      · right
        have := h.lower y _ (hy0 ▸ hevicted)
        exact ⟨by rw [hy0, Function.update_self], by omega⟩
      · exact Or.inl (Function.update_of_ne hy0 ..)
    · have hslack0 : slack r = 0 := if_neg hfull
      have hroom : r.curSize < r.size := by
        have := h.linked.curSize_le
        omega
      have hup := updateLowestNotFull_updated h.linked h.sorted (w := w) hnone hroom
      rw [if_neg hfull]
      exact guarantee_of_updated h hup (by omega)
        ⟨w, Function.update_self .., by omega, by omega⟩
        fun y hy => Or.inl (Function.update_of_ne hy ..)

end Step

section History

variable [DecidableEq κ]

/-- A new table keeps the guarantee for the empty history. -/
theorem rankingNew_guarantee (size : ℕ) (memory : ℕ → RankTableEntry κ) :
    Guarantee (rankingNew size memory) size [] where
  linked := ⟨Nat.zero_le _, fun i hlo hhi => by simp [Ranking.low, rankingNew] at hlo hhi; omega,
    fun x i hx => by simp [rankingNew] at hx⟩
  sorted := fun i j hlo hij hj => by simp [Ranking.low, rankingNew] at hlo hj; omega
  size_eq := rfl
  countSum_eq := by simp [countSum, Ranking.low, rankingNew, totalWeight]
  lower := fun x c hx => by simp [monitored, rankingNew] at hx
  upper := fun x c hx => by simp [monitored, rankingNew] at hx
  absent := fun x _ => by simp [trueWeight, totalWeight]
  seen := fun x hx => by simp [monitored, rankingNew] at hx

/-- The guarantee holds after every history whose total fits a word. -/
theorem replay_guarantee {size : ℕ} (hpos : 0 < size) (memory : ℕ → RankTableEntry κ)
    (hist : List (κ × ℕ)) (hfit : totalWeight hist < 2 ^ 64) :
    Guarantee (replay size memory hist) size hist := by
  induction hist using List.reverseRecOn with
  | nil => exact rankingNew_guarantee size memory
  | append_singleton hist u ih =>
    rw [totalWeight_append_singleton] at hfit
    rw [replay, List.foldl_append]
    exact spaceSavingUpdate_guarantee (ih (by omega)) hpos hfit

/-- Live entries hold different keys, all of them seen. -/
theorem Guarantee.curSize_le_distinct {r : Ranking κ} {size : ℕ} {hist : List (κ × ℕ)}
    (h : Guarantee r size hist) : r.curSize ≤ (hist.map Prod.fst).dedup.length := by
  have hcs := h.linked.curSize_le
  have hcard : (Finset.Ico r.low r.size).card = r.curSize := by
    rw [Nat.card_Ico, Ranking.low]
    omega
  rw [← hcard, ← List.card_toFinset]
  refine Finset.card_le_card_of_injOn (fun i => (r.rankTable i).hashTableEntry) ?_ ?_
  · intro i hi
    obtain ⟨hlo, hhi⟩ := Finset.mem_Ico.1 hi
    rw [Finset.mem_coe, List.mem_toFinset]
    exact h.seen _ (by rw [monitored, h.linked.rank_of i hlo hhi]; simp)
  · intro i hi j hj hij
    obtain ⟨hilo, hihi⟩ := Finset.mem_Ico.1 hi
    obtain ⟨hjlo, hjhi⟩ := Finset.mem_Ico.1 hj
    exact h.linked.key_injective hilo hihi hjlo hjhi hij

/-- What a client of the counter may rely on after a history `hist` of updates of a
table for `m` keys. -/
structure FrequencyGuarantee (r : Ranking κ) (m : ℕ) (hist : List (κ × ℕ)) : Prop where
  /-- The monitored counts sum to the total weight. -/
  countSum_eq_total : countSum r = totalWeight hist
  /-- A count is no lower than the true weight of its key. -/
  trueWeight_le : ∀ x c, monitored r x = some c → trueWeight hist x ≤ c
  /-- It exceeds that weight by no more than the smallest monitored count. -/
  le_add_smallest : ∀ x c y d, monitored r x = some c → monitored r y = some d →
    c ≤ trueWeight hist x + d
  /-- While fewer than `m` distinct keys have been seen, counts are exact. -/
  exact_while_few : (hist.map Prod.fst).dedup.length < m → ∀ x c, monitored r x = some c →
    c = trueWeight hist x
  /-- Keys heavier than an `m`-th of the total are monitored. -/
  heavy_monitored : ∀ x, totalWeight hist / m < trueWeight hist x → monitored r x ≠ none
  /-- Places are numbered from one, and counts do not increase along them. -/
  kth_count_antitone : ∀ j k, 1 ≤ j → j ≤ k →
    spaceSavingGetKthMostFreqCount r k ≤ spaceSavingGetKthMostFreqCount r j
  /-- The key at each place is the one that has the count of that place. -/
  kth_names : ∀ k, 1 ≤ k → k ≤ r.curSize → ∃ x, spaceSavingGetKthMostFreq r k = some x ∧
    monitored r x = some (spaceSavingGetKthMostFreqCount r k)
  /-- Every monitored key has a place. -/
  monitored_has_place : ∀ x, monitored r x ≠ none →
    ∃ k, 1 ≤ k ∧ k ≤ r.curSize ∧ spaceSavingGetKthMostFreq r k = some x

/-- A key that is not monitored weighs at most an `m`-th of the total. -/
theorem Guarantee.trueWeight_le_of_absent {r : Ranking κ} {m : ℕ} {hist : List (κ × ℕ)}
    (h : Guarantee r m hist) (hm : 1 ≤ m) {x : κ} (hx : monitored r x = none) :
    trueWeight hist x ≤ totalWeight hist / m := by
  refine (h.absent x hx).trans ?_
  unfold slack
  split
  case isTrue hfull =>
    have hsum := size_mul_lowest_le_countSum h.linked h.sorted
    rw [hfull, h.size_eq, h.countSum_eq, Nat.mul_comm] at hsum
    exact (Nat.le_div_iff_mul_le hm).2 hsum
  case isFalse => exact Nat.zero_le _

/-- The space-saving guarantee: it holds for every capacity and every history of
updates whose total weight fits a word. -/
theorem space_saving_guarantee (m : ℕ) (hm : 1 ≤ m) (memory : ℕ → RankTableEntry κ)
    (hist : List (κ × ℕ)) (hfit : totalWeight hist < 2 ^ 64) :
    FrequencyGuarantee (replay m memory hist) m hist := by
  have h := replay_guarantee hm memory hist hfit
  generalize replay m memory hist = r at h
  refine ⟨h.countSum_eq, h.lower, ?_, ?_, ?_, ?_, ?_, ?_⟩
  · intro x c y d hx hy
    have hupper := h.upper x c hx
    have hslack := slack_le_monitored h.linked h.sorted hy
    omega
  · intro hfew x c hx
    have hcur := h.curSize_le_distinct
    have hslack : slack r = 0 := if_neg (by have := h.size_eq; omega)
    have hlower := h.lower x c hx
    have hupper := h.upper x c hx
    omega
  · intro x hheavy hnone
    have := h.trueWeight_le_of_absent hm hnone
    omega
  · intro j k hj hjk
    exact kthMostFreqCount_antitone h.linked h.sorted hj hjk
  · intro k hk hk'
    exact kthMostFreq_monitored h.linked hk hk'
  · intro x hx
    exact exists_place h.linked hx

/-- Three keys compete for two places. -/
theorem space_saving_guarantee_two_places :
    let hist := [(7, 3), (8, 1), (9, 2), (7, 1)]
    (1 ≤ 2 ∧ totalWeight hist < 2 ^ 64) ∧
      FrequencyGuarantee (replay 2 (fun _ => ⟨0, 0⟩) hist) 2 hist ∧
      monitored (replay 2 (fun _ => ⟨0, 0⟩) hist) 7 = some 4 ∧
      monitored (replay 2 (fun _ => ⟨0, 0⟩) hist) 9 = some 3 := by
  refine ⟨⟨by decide, by decide⟩, ?_, by decide, by decide⟩
  exact space_saving_guarantee 2 (by decide) _ _ (by decide)

end History

end OMR.Util.SpaceSaving
