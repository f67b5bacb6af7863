import Mathlib.Tactic

/-!
# The ranking table and the space-saving counter of `util/omrutil`

The model of `ranking.c` and `spacesaving.c`. A `rankTableEntry` holds a count
and a pointer to a `hashTableEntry`, which in turn holds the rank of that entry
and the key. Entries of the hash table never move and no two have the same key,
so the pointer is represented by the key it leads to, and the hash table by the
finite map from keys to ranks that it stands for. The live part of the rank
table is `[size - curSize, size)`; the highest count is at the highest index.
Ranks and sizes are small, counts are 64-bit words.
-/

namespace OMR.Util.SpaceSaving

/-- `count` and the key behind `hashTableEntry`. -/
structure RankTableEntry (κ : Type*) where
  count : ℕ
  hashTableEntry : κ

/-- `OMRRanking`, with the array `rankTable` given by its contents at each index
and `hashTable` by the rank it stores for each key. -/
structure Ranking (κ : Type*) where
  size : ℕ
  curSize : ℕ
  rankTable : ℕ → RankTableEntry κ
  hashTable : κ → Option ℕ

/-- Arithmetic on `uintptr_t`. -/
def wordAdd (a b : ℕ) : ℕ := (a + b) % 2 ^ 64

variable {κ : Type*}

/-- `rankingNew`: an empty table over whatever the allocated array contains. -/
def rankingNew (size : ℕ) (memory : ℕ → RankTableEntry κ) : Ranking κ where
  size := size
  curSize := 0
  rankTable := memory
  hashTable := fun _ => none

/-- `rankingGetLowestCount`. -/
def rankingGetLowestCount (ranking : Ranking κ) : ℕ :=
  if ranking.curSize = 0 then 0
  else (ranking.rankTable (ranking.size - ranking.curSize)).count

section Update

variable [DecidableEq κ]

/-- Write one element of the rank table. -/
def setEntry (ranking : Ranking κ) (rank : ℕ) (entry : RankTableEntry κ) : Ranking κ :=
  { ranking with rankTable := Function.update ranking.rankTable rank entry }

/-- `hashTableAdd` of an entry: an entry with the same key stays as it is. -/
def hashTableAdd (table : κ → Option ℕ) (data : κ) (rank : ℕ) : κ → Option ℕ :=
  match table data with
  | some _ => table
  | none => Function.update table data (some rank)

/-- `hashTableRemove` of the entry with the given key. -/
def hashTableRemove (table : κ → Option ℕ) (data : κ) : κ → Option ℕ :=
  Function.update table data none

/-- Rewrite the rank stored in the hash table entry of `data`. -/
def modifyRank (table : κ → Option ℕ) (data : κ) (f : ℕ → ℕ) : κ → Option ℕ :=
  Function.update table data ((table data).map f)

/-- The body of the loop in `bubbleUp`: two neighbours trade places and both of
their hash table entries follow. -/
def swapWithNext (ranking : Ranking κ) (rank : ℕ) : Ranking κ :=
  let current := ranking.rankTable rank
  let next := ranking.rankTable (rank + 1)
  let hashTable := modifyRank ranking.hashTable current.hashTableEntry (· + 1)
  let hashTable := modifyRank hashTable next.hashTableEntry (· - 1)
  setEntry (setEntry { ranking with hashTable } (rank + 1) current) rank next

/-- The loop of `bubbleUp`, where `left` is the distance of `rank` from `size - 1`. -/
def bubbleUpLoop : ℕ → Ranking κ → ℕ → Ranking κ
  | 0, ranking, _ => ranking
  | left + 1, ranking, rank =>
    if (ranking.rankTable rank).count > (ranking.rankTable (rank + 1)).count then
      bubbleUpLoop left (swapWithNext ranking rank) (rank + 1)
    else
      ranking

/-- `bubbleUp`. -/
def bubbleUp (ranking : Ranking κ) (rank : ℕ) : Ranking κ :=
  bubbleUpLoop (ranking.size - 1 - rank) ranking rank

/-- `updateLowestNotFull`. -/
def updateLowestNotFull (ranking : Ranking κ) (key : κ) (count : ℕ) : Ranking κ :=
  let lowestRank := ranking.size - ranking.curSize - 1
  let hashTable := hashTableAdd ranking.hashTable key lowestRank
  let ranking := setEntry { ranking with hashTable } lowestRank ⟨count, key⟩
  bubbleUp { ranking with curSize := ranking.curSize + 1 } lowestRank

/-- `rankingUpdateLowest`. -/
def rankingUpdateLowest (ranking : Ranking κ) (key : κ) (count : ℕ) : Ranking κ :=
  if ¬ ranking.curSize < ranking.size then
    let hashTable :=
      hashTableRemove ranking.hashTable (ranking.rankTable 0).hashTableEntry
    let hashTable := hashTableAdd hashTable key 0
    bubbleUp (setEntry { ranking with hashTable } 0 ⟨count, key⟩) 0
  else
    updateLowestNotFull ranking key count

/-- `rankingIncrementEntry`; `none` stands for the result `FALSE`. -/
def rankingIncrementEntry (ranking : Ranking κ) (key : κ) (count : ℕ) : Option (Ranking κ) :=
  match ranking.hashTable key with
  | none => none
  | some rank =>
    let entry := ranking.rankTable rank
    some (bubbleUp (setEntry ranking rank { entry with count := wordAdd entry.count count }) rank)

/-- `spaceSavingUpdate`. -/
def spaceSavingUpdate (ranking : Ranking κ) (data : κ) (count : ℕ) : Ranking κ :=
  match rankingIncrementEntry ranking data count with
  | some ranking => ranking
  | none =>
    if ranking.curSize = ranking.size then
      rankingUpdateLowest ranking data (wordAdd (rankingGetLowestCount ranking) count)
    else
      rankingUpdateLowest ranking data count

end Update

/-- `spaceSavingGetKthMostFreq`, which is `rankingGetKthHighest`; `none` is `NULL`. -/
def spaceSavingGetKthMostFreq (ranking : Ranking κ) (k : ℕ) : Option κ :=
  if k ≤ ranking.curSize then some (ranking.rankTable (ranking.size - k)).hashTableEntry
  else none

/-- `spaceSavingGetKthMostFreqCount`, which is `rankingGetKthHighestCount`. -/
def spaceSavingGetKthMostFreqCount (ranking : Ranking κ) (k : ℕ) : ℕ :=
  if k ≤ ranking.curSize then (ranking.rankTable (ranking.size - k)).count else 0

end OMR.Util.SpaceSaving
