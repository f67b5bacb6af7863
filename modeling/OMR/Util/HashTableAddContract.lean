import OMR.Util.HashTableAddition

/-!
# What `hashTableAdd` promises when allocations fail

The growth of a full table comes before the entry is looked for. A table that may not grow, or
a space-optimised one that does not get a larger array, returns `NULL` even if the entry is
there, and so does a tree bucket without an element for the node that is compared. A table
that returns `NULL` has kept its entries.
-/

namespace OMR.Util.Hash

open OMR.Lib OMR.Util.AVL

variable {α κ : Type*} {fns : HashFunctions α} {key : α → κ} {entry x : α}

namespace J9HashTable

variable [DecidableEq α] {t t' : J9HashTable α} {alloc : Allocations α}

/-- The table is to grow before an entry is added. -/
def Full (t : J9HashTable α) : Prop := t.numberOfNodes + 1 = t.tableSize

/-- The allocations are those of the table: the walks come to its nodes, and the element for a
tree node is not in use when the entry is added. -/
structure AllocatesFor (t : J9HashTable α) (fns : HashFunctions α) (alloc : Allocations α) :
    Prop where
  walks : t.WalksNodes alloc
  fresh : ¬(t.Full ∧ t.Grows alloc) → t.Fresh alloc
  freshGrown : ∀ t', t.grown fns alloc = some (t', true) → t'.Fresh alloc

/-- The table comes to the point where the entry is looked for. -/
def Ready (t : J9HashTable α) (fns : HashFunctions α) (alloc : Allocations α) : Prop :=
  t.Full → t.canGrow = true ∧ ¬t.Crashes fns alloc ∧ (t.isSpaceOpt = true → t.Grows alloc)

/-- The bucket of the entry is a tree at that point. -/
def TreeWhenAdded (t : J9HashTable α) (fns : HashFunctions α) (alloc : Allocations α)
    (entry : α) : Prop :=
  (t.Full ∧ t.Grows alloc ∧ t.Converts alloc
      (fns.home (hashTableNextSize t.tableSize) entry)
      (t.crowd fns (hashTableNextSize t.tableSize)
        (fns.home (hashTableNextSize t.tableSize) entry))) ∨
    ¬(t.Full ∧ t.Grows alloc) ∧ t.bucketIsTree (fns.home t.tableSize entry)

/-- An entry that is in the table would be found. -/
def FindsPresent (t : J9HashTable α) (fns : HashFunctions α) (alloc : Allocations α)
    (entry : α) : Prop :=
  t.Ready fns alloc ∧ (t.TreeWhenAdded fns alloc entry → alloc.treeNode ≠ none)

section

variable [LinearOrder κ]

/-- A table that is not ready returns `NULL`, or crashes. -/
theorem hashTableAdd_of_not_ready (hlaw : Lawful fns key t.collisionResilient)
    (hwf : t.WellFormed fns key) (hwalks : t.WalksNodes alloc) (hnot : ¬t.Ready fns alloc)
    (entry : α) :
    (t.hashTableAdd fns entry alloc = some (t, none)) ∨
      t.hashTableAdd fns entry alloc = none ∧ t.isSpaceOpt = false := by
  obtain ⟨hfull, hstop⟩ := Classical.not_imp.1 hnot
  have hfull' : t.numberOfNodes + 1 = t.tableSize := hfull
  rw [hashTableAdd, if_pos hfull']
  by_cases hgrow : t.canGrow = true
  · rw [if_pos hgrow]
    by_cases hcrash : t.Crashes fns alloc
    · right
      have hnone := grown_none hwalks hcrash
      rw [grown] at hnone
      rw [hnone]
      exact ⟨rfl, hcrash.2.2.1⟩
    · left
      obtain ⟨t', g, hgrown, hto⟩ := grown_some hlaw hwf hwalks hcrash
      have hopt : t.isSpaceOpt = true ∧ ¬t.Grows alloc := by
        by_contra hno
        exact hstop ⟨hgrow, hcrash, fun h => by_contra fun hng => hno ⟨h, hng⟩⟩
      obtain ⟨rfl, rfl⟩ := hto.same hopt.2
      rw [grown] at hgrown
      rw [hgrown]
      exact if_pos ⟨hopt.1, rfl⟩
  · left
    rw [if_neg hgrow]

/-- A table that is ready has the same entries when the entry is looked for, and room for it. -/
theorem hashTableAdd_of_ready (hlaw : Lawful fns key t.collisionResilient)
    (hwf : t.WellFormed fns key) (halloc : t.AllocatesFor fns alloc) (hready : t.Ready fns alloc)
    (entry : α) :
    ∃ t', t.hashTableAdd fns entry alloc = t'.addNode fns entry alloc ∧ Kept fns key t t' ∧
      t'.Fresh alloc ∧ (t'.isSpaceOpt = true → t'.numberOfNodes + 1 < t'.tableSize) ∧
      (t'.bucketIsTree (fns.home t'.tableSize entry) ↔ t.TreeWhenAdded fns alloc entry) := by
  by_cases hfull : t.Full
  · obtain ⟨hgrow, hsafe, hopt⟩ := hready hfull
    obtain ⟨t', g, hgrown, hto⟩ := grown_some hlaw hwf halloc.walks hsafe
    have hrun := hgrown
    rw [grown] at hrun
    have hfull' : t.numberOfNodes + 1 = t.tableSize := hfull
    rw [hashTableAdd, if_pos hfull', if_pos hgrow, hrun]
    by_cases hgrows : t.Grows alloc
    · obtain ⟨rfl, hsize, htrees⟩ := hto.grows hgrows
      have hlarger := hashTableNextSize_gt hgrows.2.1
      refine ⟨t', if_neg (by simp), hto.kept, halloc.freshGrown t' hgrown, fun _ => ?_, ?_⟩
      · rw [hto.kept.count, hsize]
        omega
      · have htree := htrees (fns.home t'.tableSize entry) (Nat.mod_lt _ hto.kept.wf.size_pos)
        rw [htree, hsize]
        exact ⟨fun h => Or.inl ⟨hfull, hgrows, h⟩,
          fun h => (h.resolve_right fun h => h.1 ⟨hfull, hgrows⟩).2.2⟩
    · obtain ⟨rfl, rfl⟩ := hto.same hgrows
      refine ⟨t', if_neg fun h => hgrows (hopt h.1), hto.kept, halloc.fresh fun h => hgrows h.2,
        fun h => absurd (hopt h) hgrows, ?_⟩
      exact ⟨fun h => Or.inr ⟨fun h => hgrows h.2, h⟩,
        fun h => (h.resolve_left fun h => hgrows h.2.1).2⟩
  · have hfull' : ¬t.numberOfNodes + 1 = t.tableSize := hfull
    refine ⟨t, if_neg hfull', Kept.refl hwf, halloc.fresh fun h => hfull h.1, fun hopt => ?_, ?_⟩
    · cases hnodes : t.nodes with
      | slots slot =>
        obtain ⟨-, -, hroom, -⟩ := wellFormed_slots hwf hnodes
        omega
      | buckets head =>
        rw [isSpaceOpt, hnodes] at hopt
        cases hopt
    · exact ⟨fun h => Or.inr ⟨fun h => hfull h.1, h⟩,
        fun h => (h.resolve_left fun h => hfull h.1).2⟩

/-- What `hashTableAdd` promises: it returns a pointer to an entry that is there, and a table that
returns `NULL` has kept its entries. A space-optimised table keeps an empty slot, and no probe
loop goes on for ever. -/
structure AddContract (fns : HashFunctions α) (key : α → κ) (entry : α) (alloc : Allocations α)
    (t : J9HashTable α) : Prop where
  present : ∀ x ∈ t.entries, key x = key entry →
    ∃ t' p, t.hashTableAdd fns entry alloc = some (t', some p) ∧ t'.PointsTo p x
  null : ∀ t', t.hashTableAdd fns entry alloc = some (t', none) →
    t'.entries.Perm t.entries ∧ t'.numberOfNodes = t.numberOfNodes
  emptySlot : ∀ t' r slot, t.hashTableAdd fns entry alloc = some (t', r) →
    t'.nodes = .slots slot → ∃ e < t'.tableSize, slot e = none
  probesEnd : t.isSpaceOpt = true → t.hashTableAdd fns entry alloc ≠ none ∧
    ∀ t' r x, t.hashTableAdd fns entry alloc = some (t', r) → t'.hashTableFind fns x ≠ none
  wellFormed : ∀ t' r, t.hashTableAdd fns entry alloc = some (t', r) → t'.WellFormed fns key

/-- Adding to a well-formed table: the invariant and what a result of `NULL` means. -/
theorem addNode_some (hlaw : Lawful fns key t.collisionResilient) (hwf : t.WellFormed fns key)
    (hfresh : t.Fresh alloc) (hroom : t.isSpaceOpt = true → t.numberOfNodes + 1 < t.tableSize)
    {r : Option Pointer} (hadd : t.addNode fns entry alloc = some (t', r)) :
    t'.WellFormed fns key ∧ (r = none → Kept fns key t t') := by
  by_cases hpresent : ∃ x ∈ t.entries, key x = key entry
  · obtain ⟨x, hx, hkey⟩ := hpresent
    have hsame : t' = t := by
      by_cases htree : t.bucketIsTree (fns.home t.tableSize entry) → alloc.treeNode ≠ none
      · obtain ⟨p, hrun, -⟩ := addNode_present hlaw hwf hfresh hx hkey htree
        rw [hrun] at hadd
        cases hadd
        rfl
      · obtain ⟨htree, hnone⟩ := Classical.not_imp.1 htree
        rw [addNode_none htree (Classical.not_not.1 hnone)] at hadd
        cases hadd
        rfl
    subst hsame
    exact ⟨hwf, fun _ => Kept.refl hwf⟩
  · have hnew : ∀ x ∈ t.entries, key x ≠ key entry :=
      fun x hx hkey => hpresent ⟨x, hx, hkey⟩
    have houtcome := addNode_absent hlaw hwf hroom hnew alloc
    rw [hadd] at houtcome
    cases houtcome with
    | failed hnone _ hkept => exact ⟨hkept.wf, fun _ => hkept⟩
    | added _ p hadded => exact ⟨hadded.wf, fun h => by cases h⟩

/-- The same for `hashTableAdd`. -/
theorem hashTableAdd_some (hlaw : Lawful fns key t.collisionResilient)
    (hwf : t.WellFormed fns key) (halloc : t.AllocatesFor fns alloc) {r : Option Pointer}
    (hadd : t.hashTableAdd fns entry alloc = some (t', r)) :
    t'.WellFormed fns key ∧ (r = none → Kept fns key t t') := by
  by_cases hready : t.Ready fns alloc
  · obtain ⟨t'', hrun, hkept, hfresh, hroom, -⟩ := hashTableAdd_of_ready hlaw hwf halloc hready entry
    rw [hrun] at hadd
    have hsame : t''.collisionResilient = t.collisionResilient :=
      congrArg (fun s => s.2.2.1) hkept.settings
    rw [← hsame] at hlaw
    obtain ⟨hwf', hnull⟩ := addNode_some hlaw hkept.wf hfresh hroom hadd
    exact ⟨hwf', fun hr => hkept.trans (hnull hr)⟩
  · obtain hnull | ⟨hcrash, -⟩ := hashTableAdd_of_not_ready hlaw hwf halloc.walks hready entry
    · rw [hnull] at hadd
      cases hadd
      exact ⟨hwf, fun _ => Kept.refl hwf⟩
    · rw [hcrash] at hadd
      cases hadd

/-- A space-optimised table always returns. -/
theorem hashTableAdd_ne_none (hlaw : Lawful fns key t.collisionResilient)
    (hwf : t.WellFormed fns key) (halloc : t.AllocatesFor fns alloc)
    (hopt : t.isSpaceOpt = true) : t.hashTableAdd fns entry alloc ≠ none := by
  have hplain : t.collisionResilient = false := by
    cases hnodes : t.nodes with
    | slots slot => exact (wellFormed_slots hwf hnodes).2.2.2
    | buckets head =>
      rw [isSpaceOpt, hnodes] at hopt
      cases hopt
  by_cases hready : t.Ready fns alloc
  · obtain ⟨t', hrun, hkept, hfresh, hroom, -⟩ := hashTableAdd_of_ready hlaw hwf halloc hready entry
    have hsame : t'.collisionResilient = t.collisionResilient :=
      congrArg (fun s => s.2.2.1) hkept.settings
    rw [← hsame] at hlaw hplain
    rw [hrun]
    by_cases hpresent : ∃ x ∈ t'.entries, key x = key entry
    · obtain ⟨x, hx, hkey⟩ := hpresent
      by_cases htree : t'.bucketIsTree (fns.home t'.tableSize entry)
      · cases hnode : alloc.treeNode with
        | none => simp [addNode_none htree hnode]
        | some address =>
          obtain ⟨p, hadd, -⟩ := addNode_present hlaw hkept.wf hfresh hx hkey fun _ => by simp [hnode]
          simp [hadd]
      · obtain ⟨p, hadd, -⟩ :=
          addNode_present hlaw hkept.wf hfresh hx hkey fun h => absurd h htree
        simp [hadd]
    · have houtcome := addNode_absent hlaw hkept.wf hroom
        (fun x hx hkey => hpresent ⟨x, hx, hkey⟩) alloc
      intro hnone
      rw [hnone] at houtcome
      cases houtcome with
      | crash hresilient i _ =>
        rw [hresilient] at hplain
        cases hplain
  · obtain hnull | ⟨-, hnot⟩ :=
      hashTableAdd_of_not_ready hlaw hwf halloc.walks hready entry
    · simp [hnull]
    · rw [hnot] at hopt
      cases hopt

/-- A pointer to an entry that is there is returned where it would be found. -/
theorem hashTableAdd_present_iff (hlaw : Lawful fns key t.collisionResilient)
    (hwf : t.WellFormed fns key) (halloc : t.AllocatesFor fns alloc) (hx : x ∈ t.entries)
    (hkey : key x = key entry) :
    (∃ t' p, t.hashTableAdd fns entry alloc = some (t', some p) ∧ t'.PointsTo p x) ↔
      t.FindsPresent fns alloc entry := by
  by_cases hready : t.Ready fns alloc
  · obtain ⟨t', hrun, hkept, hfresh, -, htree⟩ := hashTableAdd_of_ready hlaw hwf halloc hready entry
    have hsame : t'.collisionResilient = t.collisionResilient :=
      congrArg (fun s => s.2.2.1) hkept.settings
    rw [← hsame] at hlaw
    rw [hrun, FindsPresent, ← htree]
    constructor
    · rintro ⟨t'', p, hadd, -⟩
      refine ⟨hready, fun htree hnone => ?_⟩
      rw [addNode_none htree hnone] at hadd
      cases hadd
    · rintro ⟨-, hnode⟩
      obtain ⟨p, hadd, hpoints⟩ :=
        addNode_present hlaw hkept.wf hfresh (hkept.entries.mem_iff.2 hx) hkey hnode
      exact ⟨t', p, hadd, hpoints⟩
  · constructor
    · rintro ⟨t', p, hadd, -⟩
      obtain hnull | ⟨hcrash, -⟩ :=
        hashTableAdd_of_not_ready hlaw hwf halloc.walks hready entry
      · rw [hnull] at hadd
        cases hadd
      · rw [hcrash] at hadd
        cases hadd
    · exact fun h => absurd h.1 hready

omit [DecidableEq α] in
theorem WellFormed.exists_empty (hwf : t.WellFormed fns key) {slot : ℕ → Option α}
    (hslots : t.nodes = .slots slot) : ∃ e < t.tableSize, slot e = none := by
  obtain ⟨-, -, hroom, -⟩ := wellFormed_slots hwf hslots
  have hcount := hwf.count
  rw [entries_slots hslots] at hcount
  exact LinearProbing.exists_empty (by omega)

omit [DecidableEq α] in
/-- The empty slot ends every probe sequence. -/
theorem hashTableFind_ne_none (hwf : t.WellFormed fns key) (x : α) :
    t.hashTableFind fns x ≠ none := by
  cases hnodes : t.nodes with
  | slots slot =>
    obtain ⟨e, he, hempty⟩ := hwf.exists_empty hnodes
    have hhome : fns.home t.tableSize x < t.tableSize := Nat.mod_lt _ hwf.size_pos
    obtain ⟨p, hp, hstop, hpass⟩ := LinearProbing.exists_first
      (fun c => c.all fun y => fns.hashEqualFn y x) slot hhome he (by rw [hempty]; rfl)
    have hfind : fns.hashTableFindNodeSpaceOpt t.tableSize slot x = some p :=
      LinearProbing.walk_eq_some hhome hp (LinearProbing.distance_lt hhome hp) hstop hpass
    simp [hashTableFind, hnodes, hfind]
  | buckets head =>
    cases hbucket : head (fns.home t.tableSize x) <;> simp [hashTableFind, hnodes, hbucket]

/-- `hashTableAdd` keeps its promises if and only if an entry that is there would be found: the
table does not have to grow, or may grow and, if it is space-optimised, does, and there is an
element for the node that is compared in a tree. -/
theorem hashTableAdd_contract_iff (hlaw : Lawful fns key t.collisionResilient)
    (hwf : t.WellFormed fns key) (halloc : t.AllocatesFor fns alloc) :
    AddContract fns key entry alloc t ↔
      ((∃ x ∈ t.entries, key x = key entry) → t.FindsPresent fns alloc entry) := by
  constructor
  · rintro hcontract ⟨x, hx, hkey⟩
    exact (hashTableAdd_present_iff hlaw hwf halloc hx hkey).1 (hcontract.present x hx hkey)
  · intro hfinds
    refine ⟨fun x hx hkey => ?_, fun t' hadd => ?_, fun t' r slot hadd hslots => ?_,
      fun hopt => ⟨hashTableAdd_ne_none hlaw hwf halloc hopt, fun t' r x hadd => ?_⟩,
      fun t' r hadd => (hashTableAdd_some hlaw hwf halloc hadd).1⟩
    · exact (hashTableAdd_present_iff hlaw hwf halloc hx hkey).2 (hfinds ⟨x, hx, hkey⟩)
    · have hkept := (hashTableAdd_some hlaw hwf halloc hadd).2 rfl
      exact ⟨hkept.entries, hkept.count⟩
    · exact (hashTableAdd_some hlaw hwf halloc hadd).1.exists_empty hslots
    · exact hashTableFind_ne_none (hashTableAdd_some hlaw hwf halloc hadd).1 x

end

/-! ### A table of numbers that may not grow -/

/-- The functions of a table of numbers. -/
def numberFns : HashFunctions ℕ := ⟨id, fun a b => a = b, fun a b => a - b⟩

/-- A table of the numbers below `n`, of the smallest size, with `J9HASH_TABLE_DO_NOT_GROW`. -/
def numberTable (n : ℕ) : J9HashTable ℕ where
  tableSize := 17
  numberOfNodes := n
  numberOfTreeNodes := 0
  listToTreeThreshold := 4294967295
  canGrow := false
  canRehash := true
  collisionResilient := false
  nodes := .buckets fun i => .list (if i < n then [⟨i, i⟩] else [])

/-- No allocation gets memory. -/
def noMemory : Allocations ℕ where
  nodes := false
  listNodePool := false
  slotCopy := id
  listCapacity := false
  listWalk := (numberTable 5).listNodes fun i => .list (if i < 5 then [⟨i, i⟩] else [])
  treeWalk := []
  listCopy := fun _ => none
  tree := fun _ => false
  treeCapacity := fun _ => false
  treeCopy := id
  listNode := none
  treeNode := none

theorem lawful_numberFns : Lawful numberFns id false :=
  ⟨fun a b => by simp [numberFns], fun a b h => congrArg id h, fun h => by cases h⟩

theorem numberTable_wellFormed {n : ℕ} (hn : n = (numberTable n).entries.length)
    (htrees : (numberTable n).nodes.treeNodes 17 = []) :
    (numberTable n).WellFormed numberFns id := by
  refine ⟨Nat.zero_lt_succ 16, hn, by rw [show (numberTable n).tableSize = 17 from rfl, htrees]; rfl, ?_⟩
  intro i hi
  refine ⟨bucketOk_list ?_ fun node hnode => ?_, fun _ => rfl⟩
  · split
    · exact List.pairwise_singleton ..
    · exact List.Pairwise.nil
  · split at hnode
    · rw [List.mem_singleton.1 hnode]
      exact Nat.mod_eq_of_lt hi
    · exact absurd hnode List.not_mem_nil

theorem hashTableAdd_contract_iff_numberTable :
    AddContract numberFns id 3 noMemory (numberTable 5) := by
  have hwalks : (numberTable 5).WalksNodes noMemory :=
    ⟨fun head hhead => by cases hhead; exact List.Perm.refl _, by decide⟩
  have hgrown : (numberTable 5).grown numberFns noMemory = some (numberTable 5, false) := rfl
  have halloc : (numberTable 5).AllocatesFor numberFns noMemory := by
    refine ⟨hwalks, fun _ address haddress => ?_, fun t' ht' => ?_⟩
    · cases haddress
    · rw [hgrown] at ht'
      cases ht'
  refine (hashTableAdd_contract_iff lawful_numberFns
    (numberTable_wellFormed (by decide) (by decide)) halloc).2 fun _ => ⟨fun hfull => ?_, ?_⟩
  · exact absurd hfull (by unfold Full; decide)
  · rintro (⟨hfull, -⟩ | ⟨-, head, root, hhead, hroot⟩)
    · exact absurd hfull (by unfold Full; decide)
    · cases hhead
      cases hroot

/-- With 16 numbers the table is full, and `NULL` comes back for a number that is there. -/
theorem hashTableAdd_full_numberTable : (numberTable 16).WellFormed numberFns id ∧
    3 ∈ (numberTable 16).entries ∧
    (numberTable 16).hashTableAdd numberFns 3 noMemory = some (numberTable 16, none) ∧
    ¬AddContract numberFns id 3 noMemory (numberTable 16) := by
  have hrun : (numberTable 16).hashTableAdd numberFns 3 noMemory = some (numberTable 16, none) := rfl
  have hmem : 3 ∈ (numberTable 16).entries := by decide
  refine ⟨numberTable_wellFormed (by decide) (by decide), hmem, hrun, fun hcontract => ?_⟩
  obtain ⟨t', p, hadd, -⟩ := hcontract.present 3 hmem rfl
  rw [hrun] at hadd
  cases hadd

end J9HashTable

end OMR.Util.Hash
