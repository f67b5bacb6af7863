import Mathlib.Data.Nat.Size
import OMR.Lib.Runs

/-!
# The hash table of the compiler

`TR_HashTab`: buckets in a closed area whose size is a power of two, and behind it an
overflow area into which the entries of a bucket are chained. When that is used up a larger
table is made and all entries are added to it, by the operation that adds any entry.
-/

namespace OMR.Compiler

/-- `TR_HashTableEntry`. -/
structure HashTableEntry (K D : Type*) where
  key : K
  data : D
  chain : ℕ

structure HashTab (K D : Type*) where
  tableSize : ℕ
  nextFree : ℕ
  mask : ℕ
  closedAreaSize : ℕ
  table : ℕ → Option (HashTableEntry K D)

namespace HashTab

def kMinimumSize : ℕ := 16

/-- The bits of `inputWord - 1` are those behind its leading zeroes. -/
def ceilingPowerOfTwo (inputWord : ℕ) : ℕ := 1 <<< Nat.size (inputWord - 1)

variable {K D : Type*}

/-- `init`. -/
def initialized (newSize : ℕ) : HashTab K D :=
  let closedAreaSize := ceilingPowerOfTwo newSize
  let closedAreaSize := if closedAreaSize < kMinimumSize then kMinimumSize else closedAreaSize
  { closedAreaSize := closedAreaSize
    mask := closedAreaSize - 1
    nextFree := closedAreaSize + 1
    tableSize := closedAreaSize + closedAreaSize / 4
    table := fun _ => none }

/-- `_table[i]`, inside the table only. -/
def read (t : HashTab K D) (i : ℕ) : Option (Option (HashTableEntry K D)) :=
  if i < t.tableSize then some (t.table i) else none

/-- `_table[i]->`, at an entry only. -/
def deref (t : HashTab K D) (i : ℕ) : Option (HashTableEntry K D) := (t.read i).join

/-- `_table[i] = entry`, inside the table only. -/
def write (t : HashTab K D) (i : ℕ) (entry : HashTableEntry K D) : Option (HashTab K D) :=
  if i < t.tableSize then some { t with table := Function.update t.table i (some entry) } else none

variable [DecidableEq K] (calculateHash : K → ℕ)

/-- The bucket of a key. -/
def bucketOf (t : HashTab K D) (key : K) : ℕ := (calculateHash key &&& t.mask) + 1

/-- The loop of `locate`, from an entry on. -/
def locateFrom (t : HashTab K D) (key : K) : ℕ → ℕ → Option (Bool × ℕ)
  | 0, _ => none
  | fuel + 1, hashIndex => (t.deref hashIndex).bind fun entry =>
    if entry.key = key then some (true, hashIndex)
    else if entry.chain = 0 then some (false, hashIndex)
    else t.locateFrom key fuel entry.chain

/-- `locate`: the result and the index, if no chain is longer than the table. -/
def locate (t : HashTab K D) (key : K) : Option (Bool × ℕ) :=
  let hashIndex := t.bucketOf calculateHash key
  (t.read hashIndex).bind fun first =>
    if first.isNone then some (false, hashIndex) else t.locateFrom key t.tableSize hashIndex

/-- The loop of `addElement`. -/
def appendFrom (t : HashTab K D) (entry : HashTableEntry K D) :
    ℕ → ℕ → Option (Bool × HashTab K D)
  | 0, _ => none
  | fuel + 1, hashIndex => (t.deref hashIndex).bind fun last =>
    if last.chain = 0 then
      let nextIndex := t.nextFree
      (t.write hashIndex { last with chain := nextIndex }).bind fun t =>
        (t.write nextIndex entry).map fun t => (true, { t with nextFree := t.nextFree + 1 })
    else if last.key = entry.key then some (false, t)
    else t.appendFrom entry fuel last.chain

/-- `addElement`, with what it calls to grow. -/
def addElementWith (grow : HashTab K D → ℕ → Option (HashTab K D)) (t : HashTab K D)
    (entry : HashTableEntry K D) : Option (Bool × HashTab K D) :=
  -- The new size is a quarter more.
  (if t.nextFree = t.tableSize - 1 then grow t (t.closedAreaSize * 5 / 4) else some t).bind
    fun t => (t.locate calculateHash entry.key).bind fun (found, hashIndex) =>
      if found then some (false, t)
      else
        let entry := { entry with chain := 0 }
        (t.read hashIndex).bind fun first =>
          if first.isNone then (t.write hashIndex entry).map fun t => (true, t)
          else t.appendFrom entry t.tableSize hashIndex

/-- Entries of another table are added one after the other. -/
def addAll (grow : HashTab K D → ℕ → Option (HashTab K D)) :
    List (HashTableEntry K D) → HashTab K D → Option (HashTab K D)
  | [], t => some t
  | entry :: rest, t =>
    (t.addElementWith calculateHash grow entry).bind fun (_, t) => addAll grow rest t

/-- The entries in the order of their indices. -/
def entries (t : HashTab K D) : List (HashTableEntry K D) :=
  (List.range t.tableSize).filterMap t.table

/-- `growAndRehash`. Additions on the way may grow the table again, up to `depth` times one
inside the other. -/
def growAndRehash : ℕ → HashTab K D → ℕ → Option (HashTab K D)
  | 0, _, _ => none
  | depth + 1, t, newSize =>
    addAll calculateHash (growAndRehash depth) t.entries (initialized newSize)

variable (depth : ℕ)

def add (t : HashTab K D) (key : K) (data : D) : Option (Bool × HashTab K D) :=
  t.addElementWith calculateHash (growAndRehash calculateHash depth) ⟨key, data, 0⟩

/-- `growTo`, which always finds a table. -/
def growTo (t : HashTab K D) (newSize : ℕ) : Option (HashTab K D) :=
  growAndRehash calculateHash depth t newSize

def getData (t : HashTab K D) (hashIndex : ℕ) : Option D := (t.deref hashIndex).map (·.data)

def updateData (t : HashTab K D) (hashIndex : ℕ) (data : D) : Option (HashTab K D) :=
  (t.deref hashIndex).bind fun entry => t.write hashIndex { entry with data := data }

def replace (t : HashTab K D) (key : K) (hashIndex : ℕ) (data : D) : Option (HashTab K D) :=
  (t.deref hashIndex).bind fun entry => t.write hashIndex ⟨key, data, entry.chain⟩

section Sizes

theorem ceilingPowerOfTwo_eq (n : ℕ) : ceilingPowerOfTwo n = 2 ^ Nat.size (n - 1) := by
  rw [ceilingPowerOfTwo, Nat.one_shiftLeft]

omit [DecidableEq K] in
/-- The closed area is a power of two from 16 up, and the rest follows from it. -/
theorem initialized_eq (newSize : ℕ) : ∃ k, 4 ≤ k ∧ (initialized newSize : HashTab K D) =
    ⟨2 ^ k + 2 ^ k / 4, 2 ^ k + 1, 2 ^ k - 1, 2 ^ k, fun _ => none⟩ := by
  simp only [initialized, ceilingPowerOfTwo_eq]
  split
  · exact ⟨4, le_rfl, rfl⟩
  · next h =>
    refine ⟨_, ?_, rfl⟩
    by_contra hlt
    have hpow := Nat.pow_lt_pow_right (a := 2) (by decide) (Nat.lt_of_not_le hlt)
    exact h hpow

/-- A quarter more is the next power of two. -/
theorem ceilingPowerOfTwo_quarter {k : ℕ} (hk : 4 ≤ k) :
    ceilingPowerOfTwo (2 ^ k * 5 / 4) = 2 ^ (k + 1) := by
  obtain ⟨j, rfl⟩ := Nat.exists_eq_add_of_le hk
  have hpos := Nat.two_pow_pos j
  rw [ceilingPowerOfTwo_eq]
  congr 1
  apply le_antisymm
  · rw [Nat.size_le, pow_succ, pow_add]
    omega
  · rw [Nat.succ_le_iff, Nat.lt_size, pow_add]
    omega

omit [DecidableEq K] in
/-- So a table that has grown has twice the buckets. -/
theorem initialized_quarter {k : ℕ} (hk : 4 ≤ k) :
    (initialized (2 ^ k * 5 / 4) : HashTab K D).closedAreaSize = 2 * 2 ^ k := by
  simp only [initialized, ceilingPowerOfTwo_quarter hk]
  have hpow : kMinimumSize ≤ 2 ^ (k + 1) :=
    Nat.pow_le_pow_right (n := 2) (by decide) (hk.trans (Nat.le_succ k))
  rw [if_neg (Nat.not_lt.2 hpow), pow_succ']

/-- What an overridden `calculateHash` reduces to the closed area is masked to the same. -/
theorem mod_and_mask (hash k : ℕ) : hash % 2 ^ k &&& 2 ^ k - 1 = hash &&& 2 ^ k - 1 := by
  rw [Nat.and_two_pow_sub_one_eq_mod, Nat.and_two_pow_sub_one_eq_mod, Nat.mod_mod]

end Sizes

end HashTab

end OMR.Compiler
