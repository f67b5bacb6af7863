import OMR.Util.HashTableRemoval

/-!
# The life of a hash table

From `hashTableNew` on, whatever the allocations return and however often the table grows and
its chains become trees, a table is a map from keys to entries: the first entry that was added
for a key stays there until it is removed. An addition that returns `NULL` leaves the map alone.
-/

namespace OMR.Util.Hash

open OMR.Lib OMR.Util.AVL

variable {α κ : Type*}

/-- `HASH_TABLE_SIZE_MIN`. -/
def hashTableSizeMin : ℕ := 17

/-- `HASH_TABLE_SIZE_MAX`. -/
def hashTableSizeMax : ℕ := 2200103

/-- What `hashTableNewImpl` is called with. The flags are given one by one. -/
structure NewArguments (α : Type*) where
  tableSize : ℕ
  entrySize : ℕ
  entryAlignment : ℕ
  doNotGrow : Bool
  doNotRehash : Bool
  collisionResilient : Bool
  malloc32 : Bool
  allowSizeOptimization : Bool
  listToTreeThreshold : ℕ
  hashFn : α → ℕ
  hashEqualFn : α → α → Bool
  comparatorFn : α → α → ℤ

/-- Which of its allocations `hashTableNewImpl` gets. -/
structure NewAllocations where
  hashTable : Bool
  listNodePool : Bool
  treePool : Bool
  avlTreeTemplate : Bool
  treeNodePool : Bool
  nodes : Bool

/-- `ROUND_TO_SIZEOF_UDATA`. -/
def roundToSizeofUdata (number : ℕ) : ℕ := (number + 7) / 8 * 8

namespace NewArguments

variable (args : NewArguments α)

/-- The first prime that is not below what the caller wants. -/
def fixedTableSize : ℕ :=
  if args.tableSize ≤ hashTableSizeMin then hashTableSizeMin
  else if args.tableSize ≥ hashTableSizeMax then hashTableSizeMax
  else hashTableNextSize (args.tableSize - 1)

/-- `listNodeSize`: the entry and a pointer to the next node. -/
def listNodeSize : ℕ :=
  let size := roundToSizeofUdata args.entrySize + 8
  (if args.entryAlignment ≠ 0 then
    (size + args.entryAlignment - 1) / args.entryAlignment * args.entryAlignment
  else size) % 2 ^ 32

/-- The table is to have no pool. -/
def spaceOpt : Bool :=
  args.allowSizeOptimization && args.listNodeSize == 2 * 8 &&
    args.fixedTableSize ≤ spaceOptLimit && !args.malloc32 && !args.collisionResilient

/-- The functions that the table calls. -/
def functions : HashFunctions α where
  hashFn := args.hashFn
  hashEqualFn :=
    if args.collisionResilient then comparatorToEqualFn args.comparatorFn else args.hashEqualFn
  comparatorFn := args.comparatorFn

/-- The functions look at the keys only. A collision-resilient table has no use for `hashEqualFn`,
and no other one for `comparatorFn`. -/
structure Obeys [LinearOrder κ] (key : α → κ) : Prop where
  hash_eq : ∀ a b, key a = key b → args.hashFn a = args.hashFn b
  equal_iff : args.collisionResilient = false →
    ∀ a b, args.hashEqualFn a b = true ↔ key a = key b
  decides : args.collisionResilient = true → Decides args.comparatorFn key key

/-- `hashTableNewImpl`. -/
def hashTableNewImpl (memory : NewAllocations) : Option (J9HashTable α) :=
  if memory.hashTable && (args.spaceOpt || memory.listNodePool) &&
      (!args.collisionResilient ||
        (memory.treePool && memory.avlTreeTemplate && memory.treeNodePool)) && memory.nodes then
    some
      { tableSize := args.fixedTableSize
        numberOfNodes := 0
        numberOfTreeNodes := 0
        listToTreeThreshold := args.listToTreeThreshold
        canGrow := !args.doNotGrow
        canRehash := !args.doNotRehash
        collisionResilient := args.collisionResilient
        nodes := if args.spaceOpt then .slots fun _ => none else .buckets fun _ => .list [] }
  else none

end NewArguments

/-- A call on a table. -/
inductive Call (α : Type*) where
  | add (entry : α) (alloc : Allocations α)
  | remove (entry : α)
  | find (entry : α)

namespace J9HashTable

/-- What a call does, and the pointer it returns or that leads to the entry it has removed. -/
def call [DecidableEq α] (t : J9HashTable α) (fns : HashFunctions α) :
    Call α → Option (J9HashTable α × Option Pointer)
  | .add entry alloc => t.hashTableAdd fns entry alloc
  | .remove entry => t.hashTableRemove fns entry
  | .find entry => (t.hashTableFind fns entry).map fun p => (t, p)

end J9HashTable

/-- A call with the pointer that it returned. -/
abbrev Returned (α : Type*) := Call α × Option Pointer

section Contents

variable [DecidableEq κ] (key : α → κ)

/-- What a call that has returned makes of the map. -/
def mapAfter (m : κ → Option α) : Returned α → κ → Option α
  | (.add entry _, some _) =>
    if (m (key entry)).isNone then
      Function.update m (key entry) (some entry)
    else m
  | (.add _ _, none) => m
  | (.remove entry, _) => Function.update m (key entry) none
  | (.find _, _) => m

/-- The map after the calls. -/
def contents (calls : List (Returned α)) : κ → Option α := calls.foldl (mapAfter key) fun _ => none

end Contents

/-! ### One call -/

namespace J9HashTable

variable [LinearOrder κ] {key : α → κ} {fns : HashFunctions α} {t t' t₀ : J9HashTable α}
  {m : κ → Option α} {resilient : Bool}

/-- The table is in order and has the entries of the map. -/
structure Represents (t : J9HashTable α) (fns : HashFunctions α) (key : α → κ)
    (m : κ → Option α) : Prop where
  wf : t.WellFormed fns key
  mem_iff : ∀ k x, m k = some x ↔ x ∈ t.entries ∧ key x = k

namespace Represents

theorem eq_none_iff (h : t.Represents fns key m) (k : κ) :
    m k = none ↔ ∀ x ∈ t.entries, key x ≠ k := by
  rw [Option.eq_none_iff_forall_ne_some]
  constructor
  · exact fun hnone x hx hkey => hnone x ((h.mem_iff k x).2 ⟨hx, hkey⟩)
  · exact fun hnew x hx => hnew x ((h.mem_iff k x).1 hx).1 ((h.mem_iff k x).1 hx).2

/-- The entries of a table that has kept them are those of the map. -/
theorem of_perm (h : t.Represents fns key m) (hwf : t'.WellFormed fns key)
    (hperm : t'.entries.Perm t.entries) : t'.Represents fns key m :=
  ⟨hwf, fun k x => by rw [h.mem_iff, hperm.mem_iff]⟩

/-- An entry with a new key. -/
theorem insert (h : t.Represents fns key m) (hwf : t'.WellFormed fns key) {entry : α}
    (hnone : m (key entry) = none) (hperm : t'.entries.Perm (entry :: t.entries)) :
    t'.Represents fns key (Function.update m (key entry) (some entry)) := by
  have hnew := (h.eq_none_iff _).1 hnone
  refine ⟨hwf, fun k x => ?_⟩
  rw [hperm.mem_iff, List.mem_cons]
  by_cases hk : k = key entry
  · subst hk
    rw [Function.update_self, Option.some_inj]
    constructor
    · rintro rfl
      exact ⟨Or.inl rfl, rfl⟩
    · rintro ⟨rfl | hx, hkey⟩
      · rfl
      · exact absurd hkey (hnew x hx)
  · rw [Function.update_of_ne hk, h.mem_iff]
    constructor
    · exact fun ⟨hx, hkey⟩ => ⟨Or.inr hx, hkey⟩
    · rintro ⟨rfl | hx, hkey⟩
      · exact absurd hkey.symm hk
      · exact ⟨hx, hkey⟩

/-- An entry goes. -/
theorem erase (h : t.Represents fns key m) (hlaw : Lawful fns key resilient) {x : α}
    (hremoved : Removed fns key x t t') :
    t'.Represents fns key (Function.update m (key x) none) := by
  refine ⟨hremoved.wf, fun k y => ?_⟩
  have hmem := hremoved.entries.mem_iff (a := y)
  rw [List.mem_cons] at hmem
  by_cases hk : k = key x
  · subst hk
    rw [Function.update_self]
    constructor
    · exact fun hy => by cases hy
    · exact fun ⟨hy, hkey⟩ => absurd hkey (hremoved.key_ne hlaw h.wf y hy)
  · rw [Function.update_of_ne hk, h.mem_iff, hmem]
    constructor
    · rintro ⟨rfl | hy, hkey⟩
      · exact absurd hkey.symm hk
      · exact ⟨hy, hkey⟩
    · exact fun ⟨hy, hkey⟩ => ⟨Or.inr hy, hkey⟩

end Represents

section Calls

variable [DecidableEq α] {entry : α} {alloc : Allocations α}

/-- A pointer that `hashTableAdd` returns leads to the entry that was there, or to the new one. -/
theorem hashTableAdd_pointer (hlaw : Lawful fns key t.collisionResilient)
    (h : t.Represents fns key m) (halloc : t.AllocatesFor fns alloc) {p : Pointer}
    (hadd : t.hashTableAdd fns entry alloc = some (t', some p)) :
    t'.Represents fns key (mapAfter key m (.add entry alloc, some p)) ∧
      t'.settings = t.settings ∧ t'.PointsTo p ((m (key entry)).getD entry) := by
  by_cases hready : t.Ready fns alloc
  · obtain ⟨t'', hrun, hkept, hfresh, hroom, -⟩ :=
      hashTableAdd_of_ready hlaw h.wf halloc hready entry
    rw [hrun] at hadd
    have h'' := h.of_perm hkept.wf hkept.entries
    have hsame : t''.collisionResilient = t.collisionResilient :=
      congrArg (fun s => s.2.2.1) hkept.settings
    rw [← hsame] at hlaw
    cases hm : m (key entry) with
    | none =>
      have houtcome := addNode_absent hlaw hkept.wf hroom ((h''.eq_none_iff _).1 hm) alloc
      rw [hadd] at houtcome
      cases houtcome with
      | added _ _ hadded =>
        rw [mapAfter, if_pos (by rw [hm]; rfl)]
        exact ⟨h''.insert hadded.wf hm hadded.entries, hadded.settings.trans hkept.settings,
          hadded.points⟩
    | some x =>
      obtain ⟨hx, hkey⟩ := (h''.mem_iff _ x).1 hm
      have htree : t''.bucketIsTree (fns.home t''.tableSize entry) → alloc.treeNode ≠ none := by
        intro htree hnone
        rw [addNode_none htree hnone] at hadd
        cases hadd
      obtain ⟨q, hfound, hpoints⟩ := addNode_present hlaw hkept.wf hfresh hx hkey htree
      rw [hfound] at hadd
      cases hadd
      rw [mapAfter, if_neg (by rw [hm]; exact Bool.noConfusion)]
      exact ⟨h'', hkept.settings, hpoints⟩
  · obtain hnull | ⟨hcrash, -⟩ := hashTableAdd_of_not_ready hlaw h.wf halloc.walks hready entry
    · rw [hnull] at hadd
      cases hadd
    · rw [hcrash] at hadd
      cases hadd

omit [DecidableEq α] in
/-- `hashTableFind` returns a pointer to the entry of the map, or `NULL`. -/
theorem Represents.hashTableFind (h : t.Represents fns key m)
    (hlaw : Lawful fns key t.collisionResilient) (entry : α) :
    ∃ r, t.hashTableFind fns entry = some r ∧ (r = none ↔ m (key entry) = none) ∧
      ∀ p x, r = some p → m (key entry) = some x → t.PointsTo p x := by
  cases hm : m (key entry) with
  | none =>
    refine ⟨none, hashTableFind_absent hlaw h.wf ((h.eq_none_iff _).1 hm), by simp, ?_⟩
    exact fun p x hp => by cases hp
  | some x =>
    obtain ⟨hx, hkey⟩ := (h.mem_iff _ x).1 hm
    obtain ⟨p, hfind, hpoints⟩ := hashTableFind_present hlaw h.wf hx hkey
    refine ⟨some p, hfind, by simp, fun q y hq hy => ?_⟩
    cases hq
    cases hy
    exact hpoints

/-- `hashTableRemove` takes the entry of the map away, if there is one. -/
theorem Represents.hashTableRemove (h : t.Represents fns key m)
    (hlaw : Lawful fns key t.collisionResilient) (entry : α) :
    ∃ t' r, t.hashTableRemove fns entry = some (t', r) ∧ (r = none ↔ m (key entry) = none) ∧
      (∀ x, m (key entry) = some x → t.entries.Perm (x :: t'.entries)) ∧
      t'.Represents fns key (Function.update m (key entry) none) ∧ t'.settings = t.settings := by
  cases hm : m (key entry) with
  | none =>
    refine ⟨t, none, hashTableRemove_absent hlaw h.wf ((h.eq_none_iff _).1 hm), by simp, ?_, ?_,
      rfl⟩
    · intro x hx
      cases hx
    · rw [← hm, Function.update_eq_self]
      exact h
  | some x =>
    obtain ⟨hx, hkey⟩ := (h.mem_iff _ x).1 hm
    obtain ⟨t', p, hremove, -, hremoved⟩ := hashTableRemove_present hlaw h.wf hx hkey
    refine ⟨t', some p, hremove, by simp, fun y hy => ?_, ?_, hremoved.settings⟩
    · cases hy
      exact hremoved.entries
    · rw [← hkey]
      exact h.erase hlaw hremoved

/-- Every call that returns does to the table what it does to the map. -/
theorem Represents.call (h : t.Represents fns key m) (hlaw : Lawful fns key t.collisionResilient)
    {c : Call α} {r : Option Pointer}
    (halloc : ∀ entry alloc, c = .add entry alloc → t.AllocatesFor fns alloc)
    (hcall : t.call fns c = some (t', r)) :
    t'.Represents fns key (mapAfter key m (c, r)) ∧ t'.settings = t.settings := by
  cases c with
  | add entry alloc =>
    have halloc' := halloc entry alloc rfl
    rw [J9HashTable.call] at hcall
    cases r with
    | none =>
      obtain ⟨hwf', hkept⟩ := hashTableAdd_some hlaw h.wf halloc' hcall
      exact ⟨h.of_perm hwf' (hkept rfl).entries, (hkept rfl).settings⟩
    | some p =>
      obtain ⟨h', hsettings, -⟩ := hashTableAdd_pointer hlaw h halloc' hcall
      exact ⟨h', hsettings⟩
  | remove entry =>
    obtain ⟨t'', r', hremove, -, -, h', hsettings⟩ := h.hashTableRemove hlaw entry
    rw [J9HashTable.call, hremove] at hcall
    cases hcall
    exact ⟨h', hsettings⟩
  | find entry =>
    obtain ⟨r', hfind, -⟩ := h.hashTableFind hlaw entry
    rw [J9HashTable.call, hfind] at hcall
    cases hcall
    exact ⟨h, rfl⟩

end Calls

/-! ### Runs -/

/-- Calls that have returned, from a table on. What an addition is given comes from pools that
know the table. -/
inductive History [DecidableEq α] (fns : HashFunctions α) (t₀ : J9HashTable α) :
    List (Returned α) → J9HashTable α → Prop where
  | new : History fns t₀ [] t₀
  | call {calls : List (Returned α)} {t t' : J9HashTable α} {c : Call α} {r : Option Pointer}
      (before : History fns t₀ calls t)
      (allocates : ∀ entry alloc, c = .add entry alloc → t.AllocatesFor fns alloc)
      (returns : t.call fns c = some (t', r)) : History fns t₀ (calls ++ [(c, r)]) t'

end J9HashTable

section New

variable [LinearOrder κ] {args : NewArguments α} {key : α → κ} {t : J9HashTable α}
  {memory : NewAllocations}

theorem NewArguments.Obeys.lawful (h : args.Obeys key) :
    Lawful args.functions key args.collisionResilient := by
  refine ⟨fun a b => ?_, h.hash_eq, h.decides⟩
  rw [functions]
  cases hresilient : args.collisionResilient with
  | false => exact h.equal_iff hresilient a b
  | true =>
    change decide (args.comparatorFn b a = 0) = true ↔ key a = key b
    rw [decide_eq_true_eq, (h.decides hresilient).eq_iff]
    exact eq_comm

/-- A new table has room, its size is one of the primes. -/
theorem NewArguments.fixedTableSize_pos (args : NewArguments α) : 0 < args.fixedTableSize := by
  rw [fixedTableSize]
  split
  · decide
  · split
    · decide
    · rename_i hmin hmax
      have hlast : 2200103 > args.tableSize - 1 := by
        rw [hashTableSizeMax] at hmax
        omega
      have hsome : (primesTable.find? fun prime => prime > args.tableSize - 1).isSome = true :=
        List.find?_isSome.2 ⟨2200103, by decide, decide_eq_true hlast⟩
      obtain ⟨prime, hprime⟩ := Option.isSome_iff_exists.1 hsome
      have hlarger := List.find?_some hprime
      rw [decide_eq_true_eq] at hlarger
      rw [hashTableNextSize, hprime, Option.getD_some]
      omega

namespace J9HashTable

variable {fns : HashFunctions α}

/-- A table without entries is the empty map. -/
theorem represents_empty (hsize : 0 < t.tableSize) (hcount : t.numberOfNodes = 0)
    (htrees : t.numberOfTreeNodes = (t.nodes.treeNodes t.tableSize).length)
    (hentries : t.entries = []) (harray : t.ArrayOk fns key) :
    t.Represents fns key fun _ => none := by
  refine ⟨⟨hsize, by rw [hcount, hentries, List.length_nil], htrees, harray⟩, fun k x => ?_⟩
  rw [hentries]
  constructor
  · intro h
    cases h
  · exact fun h => absurd h.1 List.not_mem_nil

theorem represents_emptySlots (hslots : t.nodes = .slots fun _ => none) (hsize : 0 < t.tableSize)
    (hcount : t.numberOfNodes = 0) (htrees : t.numberOfTreeNodes = 0)
    (hplain : t.collisionResilient = false) : t.Represents fns key fun _ => none := by
  refine represents_empty hsize hcount (by rw [htrees, hslots]; rfl) ?_ ?_
  · rw [entries_slots hslots, LinearProbing.stored, List.filterMap_eq_nil_iff]
    exact fun _ _ => rfl
  · rw [ArrayOk, hslots]
    refine ⟨LinearProbing.Probed.empty _ _, ?_, by rw [hcount]; exact hsize, hplain⟩
    intro p hp q hq x y hx
    cases hx

theorem represents_emptyBuckets (hbuckets : t.nodes = .buckets fun _ => .list [])
    (hsize : 0 < t.tableSize) (hcount : t.numberOfNodes = 0) (htrees : t.numberOfTreeNodes = 0) :
    t.Represents fns key fun _ => none := by
  refine represents_empty hsize hcount ?_ ?_ ?_
  · have hnil : t.nodes.treeNodes t.tableSize = [] := by
      rw [treeNodes_buckets hbuckets, List.flatMap_eq_nil_iff]
      exact fun _ _ => rfl
    rw [htrees, hnil, List.length_nil]
  · rw [entries_buckets hbuckets, List.flatMap_eq_nil_iff]
    exact fun _ _ => rfl
  · rw [ArrayOk, hbuckets]
    refine fun i hi => ⟨bucketOk_list List.Pairwise.nil fun node hnode => ?_, fun _ => rfl⟩
    exact absurd hnode List.not_mem_nil

end J9HashTable

/-- A new table is the empty map. -/
theorem NewArguments.hashTableNewImpl_represents {fns : HashFunctions α}
    (hnew : args.hashTableNewImpl memory = some t) :
    t.Represents fns key (fun _ => none) ∧ t.collisionResilient = args.collisionResilient := by
  rw [hashTableNewImpl] at hnew
  split at hnew
  · cases hnew
    refine ⟨?_, rfl⟩
    by_cases hopt : args.spaceOpt = true
    · have hplain : args.collisionResilient = false := by
        rw [spaceOpt, Bool.and_eq_true_iff, Bool.not_eq_true'] at hopt
        exact hopt.2
      exact J9HashTable.represents_emptySlots (if_pos hopt) args.fixedTableSize_pos rfl rfl hplain
    · exact J9HashTable.represents_emptyBuckets (if_neg hopt) args.fixedTableSize_pos rfl rfl
  · cases hnew

end New

section Maps

variable [LinearOrder κ] [DecidableEq α] {args : NewArguments α} {key : α → κ}
  {t₀ t : J9HashTable α} {memory : NewAllocations} {calls : List (Returned α)}

/-- A table is the map that the calls on it make, however it has grown. -/
theorem J9HashTable.History.represents (hobeys : args.Obeys key)
    (hnew : args.hashTableNewImpl memory = some t₀)
    (h : J9HashTable.History args.functions t₀ calls t) :
    t.Represents args.functions key (contents key calls) ∧
      t.collisionResilient = args.collisionResilient := by
  induction h with
  | new => exact NewArguments.hashTableNewImpl_represents hnew
  | @call calls t t' c r _ allocates returns ih =>
    obtain ⟨hrep, hresilient⟩ := ih
    have hlaw := hobeys.lawful
    rw [← hresilient] at hlaw
    obtain ⟨hrep', hsettings⟩ := hrep.call hlaw allocates returns
    refine ⟨?_, (congrArg (fun s => s.2.2.1) hsettings).trans hresilient⟩
    rw [contents, List.foldl_append]
    exact hrep'

/-- After all calls since `hashTableNew`, a table has the entries of the map they make, each of
them once. Finding and removing always return, with a pointer to the entry of the map or with
none, and a pointer that an addition returns leads to the entry that was there first. -/
theorem hashTable_keeps_map (hobeys : args.Obeys key)
    (hnew : args.hashTableNewImpl memory = some t₀)
    (h : J9HashTable.History args.functions t₀ calls t) :
    (∀ k x, contents key calls k = some x ↔ x ∈ t.entries ∧ key x = k) ∧
      t.entries.Pairwise (fun a b => key a ≠ key b) ∧ t.numberOfNodes = t.entries.length ∧
      (∀ entry, ∃ r, t.hashTableFind args.functions entry = some r ∧
        (r = none ↔ contents key calls (key entry) = none) ∧
        ∀ p x, r = some p → contents key calls (key entry) = some x → t.PointsTo p x) ∧
      (∀ entry, ∃ t' r, t.hashTableRemove args.functions entry = some (t', r) ∧
        (r = none ↔ contents key calls (key entry) = none) ∧
        (∀ x, contents key calls (key entry) = some x → t.entries.Perm (x :: t'.entries)) ∧
        t'.hashTableFind args.functions entry = some none) ∧
      (∀ entry alloc t' p, t.AllocatesFor args.functions alloc →
        t.hashTableAdd args.functions entry alloc = some (t', some p) →
        t'.PointsTo p ((contents key calls (key entry)).getD entry)) ∧
      (t.isSpaceOpt = true → ∀ entry alloc, t.AllocatesFor args.functions alloc →
        t.hashTableAdd args.functions entry alloc ≠ none) := by
  obtain ⟨hrep, hresilient⟩ := h.represents hobeys hnew
  have hlaw := hobeys.lawful
  rw [← hresilient] at hlaw
  refine ⟨hrep.mem_iff, hrep.wf.entries_distinct hlaw, hrep.wf.count, hrep.hashTableFind hlaw,
    fun entry => ?_, fun entry alloc t' p halloc hadd => ?_, fun hopt entry alloc halloc => ?_⟩
  · obtain ⟨t', r, hremove, hnull, hperm, hrep', hsettings⟩ := hrep.hashTableRemove hlaw entry
    have hsame : t'.collisionResilient = t.collisionResilient :=
      congrArg (fun s => s.2.2.1) hsettings
    rw [← hsame] at hlaw
    obtain ⟨r', hfind, hnull', -⟩ := hrep'.hashTableFind hlaw entry
    refine ⟨t', r, hremove, hnull, hperm, ?_⟩
    rw [hfind, hnull'.2 (Function.update_self ..)]
  · exact (J9HashTable.hashTableAdd_pointer hlaw hrep halloc hadd).2.2
  · exact J9HashTable.hashTableAdd_ne_none hlaw hrep.wf halloc hopt

end Maps

/-- A table of numbers with lists. -/
def numberArguments : NewArguments ℕ where
  tableSize := 0
  entrySize := 8
  entryAlignment := 0
  doNotGrow := false
  doNotRehash := false
  collisionResilient := false
  malloc32 := false
  allowSizeOptimization := false
  listToTreeThreshold := 4294967295
  hashFn := id
  hashEqualFn := fun a b => a = b
  comparatorFn := fun a b => a - b

/-- There is an element for one list node. -/
def oneNode : Allocations ℕ := { J9HashTable.noMemory with listWalk := [], listNode := some 100 }

/-- The table that `hashTableNew` makes of the arguments. -/
def newNumberTable : J9HashTable ℕ where
  tableSize := 17
  numberOfNodes := 0
  numberOfTreeNodes := 0
  listToTreeThreshold := 4294967295
  canGrow := true
  canRehash := true
  collisionResilient := false
  nodes := .buckets fun _ => .list []

theorem numberArguments_obeys : numberArguments.Obeys id :=
  ⟨fun _ _ h => congrArg id h, fun _ _ _ => decide_eq_true_iff, fun h => Bool.noConfusion h⟩

theorem newNumberTable_allocatesFor :
    newNumberTable.AllocatesFor numberArguments.functions oneNode := by
  have hgrown : newNumberTable.grown numberArguments.functions oneNode =
    some (newNumberTable, false) := rfl
  refine ⟨⟨fun head hhead => ?_, List.Perm.refl _⟩, fun _ address haddress => ?_, fun t' ht' => ?_⟩
  · cases hhead
    exact List.Perm.refl _
  · cases haddress
  · rw [hgrown] at ht'
    cases ht'

theorem hashTable_keeps_map_numbers : ∃ t,
    J9HashTable.History numberArguments.functions newNumberTable
      [(.add 3 oneNode, some (.listNode 100))] t ∧ 3 ∈ t.entries := by
  obtain ⟨t, hrun⟩ : ∃ t, J9HashTable.History numberArguments.functions newNumberTable
      [(.add 3 oneNode, some (.listNode 100))] t := by
    refine ⟨_, .call .new (fun entry alloc hcall => ?_) rfl⟩
    cases hcall
    exact newNumberTable_allocatesFor
  have hnew : numberArguments.hashTableNewImpl ⟨true, true, false, false, false, true⟩ =
    some newNumberTable := rfl
  exact ⟨t, hrun, (((hashTable_keeps_map numberArguments_obeys hnew hrun).1 3 3).1 rfl).1⟩

end OMR.Util.Hash
