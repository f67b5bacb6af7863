import OMR.Util.HashTableGrowth

/-!
# What `hashTableGrow` does

A table that grows keeps its entries, in whatever representation it has afterwards. When it
does not grow it is the same table, and only the rebuilding from the pools may follow a
`NULL` pointer.
-/

namespace OMR.Util.Hash

open OMR.Lib OMR.Util.AVL

variable {α κ : Type*} {fns : HashFunctions α} {n : ℕ} {key : α → κ}

theorem hashTableNextSize_gt {size : ℕ} (h : hashTableNextSize size ≠ 0) :
    size < hashTableNextSize size := by
  unfold hashTableNextSize at h ⊢
  cases hfind : primesTable.find? fun prime => prime > size with
  | none =>
    rw [hfind] at h
    exact absurd rfl h
  | some prime => simpa using List.find?_some hfind

namespace J9HashTable

variable {t : J9HashTable α}

/-- The entries go one after the other into a larger array, and each is found there. -/
theorem reinsert_spec {entries : List α} {slot : ℕ → Option α}
    (hprobed : LinearProbing.Probed n (fns.home n) slot)
    (hdistinct : LinearProbing.Distinct n key slot)
    (hkeys : entries.Pairwise fun a b => key a ≠ key b)
    (hnew : ∀ x ∈ entries, ∀ q < n, ∀ y, slot q = some y → key y ≠ key x)
    (hroom : entries.length + (LinearProbing.stored n slot).length < n) :
    ∃ slot', fns.reinsert n entries slot = some slot' ∧
      LinearProbing.Probed n (fns.home n) slot' ∧ LinearProbing.Distinct n key slot' ∧
      (LinearProbing.stored n slot').Perm (entries ++ LinearProbing.stored n slot) := by
  induction entries generalizing slot with
  | nil => exact ⟨slot, rfl, hprobed, hdistinct, List.Perm.refl _⟩
  | cons x entries ih =>
    obtain ⟨hx, hkeys⟩ := List.pairwise_cons.1 hkeys
    rw [List.length_cons] at hroom
    have hhome : fns.home n x < n := Nat.mod_lt _ (by omega)
    obtain ⟨e, he, hempty⟩ :=
      LinearProbing.exists_empty (show (LinearProbing.stored n slot).length < n by omega)
    obtain ⟨p, hp, hwalk, hfree, hpass⟩ := LinearProbing.Probed.walk_empty hhome he hempty
    have hstored := LinearProbing.stored_update_some hp hfree x
    have hnew' : ∀ y ∈ entries, ∀ q < n, ∀ z,
        Function.update slot p (some x) q = some z → key z ≠ key y := by
      intro y hy q hq z hz
      by_cases hqp : q = p
      · rw [hqp, Function.update_self, Option.some.injEq] at hz
        exact hz ▸ hx y hy
      · rw [Function.update_of_ne hqp] at hz
        exact hnew y (List.mem_cons_of_mem _ hy) q hq z hz
    obtain ⟨slot', hrun, hprobed', hdistinct', hperm⟩ := ih (hprobed.insert hhome hpass)
      (hdistinct.insert (hnew x (List.mem_cons_self ..))) hkeys hnew'
      (by rw [hstored.length_eq, List.length_cons]; omega)
    refine ⟨slot', ?_, hprobed', hdistinct', hperm.trans ?_⟩
    · rw [HashFunctions.reinsert, hwalk]
      exact hrun
    · exact (hstored.append_left entries).trans List.perm_middle

variable [LinearOrder κ]

theorem Kept.refl (h : t.WellFormed fns key) : Kept fns key t t :=
  ⟨h, List.Perm.refl _, rfl, rfl⟩

theorem Kept.trans {t' t'' : J9HashTable α} (h : Kept fns key t t') (h' : Kept fns key t' t'') :
    Kept fns key t t'' :=
  ⟨h'.wf, h'.entries.trans h.entries, h'.count.trans h.count, h'.settings.trans h.settings⟩

/-- There are no tree nodes in an array of slots. -/
theorem treeCount_slots (hwf : t.WellFormed fns key) {slot : ℕ → Option α}
    (hslots : t.nodes = .slots slot) : t.numberOfTreeNodes = 0 := by
  rw [hwf.treeCount, hslots]
  rfl

variable {alloc : Allocations α} {resilient : Bool}

/-- `hashTableGrowSpaceOpt` of a table that gets the memory for the array, and for the pool if it
begins to use one. -/
theorem hashTableGrowSpaceOpt_grown (hlaw : Lawful fns key resilient)
    (hwf : t.WellFormed fns key) {slot : ℕ → Option α} (hslots : t.nodes = .slots slot)
    (hlarger : t.tableSize < n) (hnodes : alloc.nodes = true)
    (hpool : spaceOptLimit < n → alloc.listNodePool = true) :
    ∃ t', t.hashTableGrowSpaceOpt fns slot n alloc = some (t', true) ∧ Kept fns key t t' ∧
      t'.tableSize = n ∧ ∀ i, ¬t'.bucketIsTree i := by
  have htree := treeCount_slots hwf hslots
  have hcount := hwf.count
  obtain ⟨-, -, hroom, hplain⟩ := wellFormed_slots hwf hslots
  by_cases hlimit : spaceOptLimit < n
  · obtain ⟨t', ht'⟩ : ∃ t', t' = { t with
        tableSize := n
        nodes := .buckets (fns.pushNodes n ((List.range t.tableSize).filterMap fun i =>
          (slot i).map fun entry => (⟨alloc.slotCopy i, entry⟩ : Node α))) } := ⟨_, rfl⟩
    have hsize : t'.tableSize = n := by rw [ht']
    subst hsize
    have hdata : (((List.range t.tableSize).filterMap fun i =>
        (slot i).map fun entry => (⟨alloc.slotCopy i, entry⟩ : Node α)).map Node.data).Perm
        t.entries := by
      rw [entries_slots hslots, LinearProbing.stored, List.map_filterMap]
      refine List.Perm.of_eq (List.filterMap_congr fun i _ => ?_)
      rw [Option.map_map]
      exact Option.map_id' ..
    obtain ⟨hkept, hlists⟩ : Kept fns key t t' ∧ ∀ i, ¬t'.bucketIsTree i :=
      kept_of_pushNodes hlaw hwf hdata (by rw [ht']) (by omega) (by rw [ht']; exact htree)
        (by rw [ht']) (by rw [ht']; rfl)
    refine ⟨t', ?_, hkept, rfl, hlists⟩
    unfold hashTableGrowSpaceOpt
    rw [if_neg (by simp [hnodes]), if_pos hlimit, if_pos (hpool hlimit), ht']
  · rw [entries_slots hslots] at hcount
    have hkeys := hwf.entries_distinct hlaw
    rw [entries_slots hslots] at hkeys
    have hnone : LinearProbing.stored n (fun _ => (none : Option α)) = [] := by
      simp [LinearProbing.stored]
    obtain ⟨slot', hrun, hprobed, hdistinct, hperm⟩ := reinsert_spec
      (LinearProbing.Probed.empty n (fns.home n)) (fun _ _ _ _ _ _ h => by cases h) hkeys
      (fun _ _ _ _ _ h => by cases h) (by rw [hnone, List.length_nil]; omega)
    rw [hnone, List.append_nil] at hperm
    refine ⟨{ t with tableSize := n, nodes := .slots slot' }, ?_, ⟨?_, ?_, rfl, rfl⟩, rfl, ?_⟩
    · unfold hashTableGrowSpaceOpt
      rw [if_neg (by simp [hnodes]), if_neg hlimit, hrun]
      rfl
    · exact ⟨by show 0 < n; omega, hcount.trans hperm.length_eq.symm, htree,
        hprobed, hdistinct, hroom.trans hlarger, hplain⟩
    · rw [entries_slots hslots]
      exact hperm
    · rintro i ⟨head, root, heq, -⟩
      cases heq

/-- Without the memory it is the same table. -/
theorem hashTableGrowSpaceOpt_same (slot : ℕ → Option α)
    (h : ¬(alloc.nodes = true ∧ (spaceOptLimit < n → alloc.listNodePool = true))) :
    t.hashTableGrowSpaceOpt fns slot n alloc = some (t, false) := by
  unfold hashTableGrowSpaceOpt
  by_cases hnodes : alloc.nodes = true
  · obtain ⟨hlimit, hpool⟩ := Classical.not_imp.1 fun hpool => h ⟨hnodes, hpool⟩
    rw [if_neg (by simp [hnodes]), if_pos hlimit, if_neg hpool]
  · rw [if_pos (by simpa using hnodes)]

/-- `hashTableGrowListNodes` of a table that gets the memory for the array. -/
theorem hashTableGrowListNodes_grown (hlaw : Lawful fns key resilient)
    (hwf : t.WellFormed fns key) {head : ℕ → Bucket α} (hbuckets : t.nodes = .buckets head)
    (hplain : t.collisionResilient = false) (hn : 0 < n) (hnodes : alloc.nodes = true) :
    ∃ t', t.hashTableGrowListNodes fns head n alloc = (t', true) ∧ Kept fns key t t' ∧
      t'.tableSize = n ∧ ∀ i, ¬t'.bucketIsTree i := by
  have htrees : t.nodes.treeNodes t.tableSize = [] := by
    rw [treeNodes_buckets hbuckets, List.flatMap_eq_nil_iff]
    intro i hi
    rw [(wellFormed_buckets hwf hbuckets i (List.mem_range.1 hi)).2 hplain]
    rfl
  have hdata := entries_perm_nodes hbuckets
  rw [htrees, List.append_nil] at hdata
  obtain ⟨t', ht'⟩ : ∃ t', t' = { t with
      tableSize := n
      nodes := .buckets (fns.pushNodes n (t.listNodes head)) } := ⟨_, rfl⟩
  have hsize : t'.tableSize = n := by rw [ht']
  subst hsize
  obtain ⟨hkept, hlists⟩ : Kept fns key t t' ∧ ∀ i, ¬t'.bucketIsTree i :=
    kept_of_pushNodes hlaw hwf hdata (by rw [ht']) hn
      (by rw [ht']; exact hwf.treeCount.trans (by rw [htrees]; rfl)) (by rw [ht'])
      (by rw [ht']; rfl)
  refine ⟨t', ?_, hkept, rfl, hlists⟩
  rw [hashTableGrowListNodes, if_pos hnodes, ht']

/-- The walks over the pools of a table come to its nodes. -/
structure WalksNodes (t : J9HashTable α) (alloc : Allocations α) : Prop where
  list : ∀ head, t.nodes = .buckets head → alloc.listWalk.Perm (t.listNodes head)
  tree : alloc.treeWalk.Perm (t.nodes.treeNodes t.tableSize)

/-- `hashTableGrow` gets what the new array takes. -/
def Grows (t : J9HashTable α) (alloc : Allocations α) : Prop :=
  t.canRehash = true ∧ hashTableNextSize t.tableSize ≠ 0 ∧ alloc.nodes = true ∧
    (t.isSpaceOpt = true → spaceOptLimit < hashTableNextSize t.tableSize →
      alloc.listNodePool = true)

/-- A table has grown, where it gets what that takes, and is the same otherwise. A bucket that is
a tree afterwards is one of a collision-resilient table. -/
structure GrownTo (fns : HashFunctions α) (key : α → κ) (alloc : Allocations α)
    (t t' : J9HashTable α) (g : Bool) : Prop where
  kept : Kept fns key t t'
  grows : t.Grows alloc → g = true ∧ t'.tableSize = hashTableNextSize t.tableSize ∧
    ∀ i < t'.tableSize, t'.bucketIsTree i ↔ t.Converts alloc i (t.crowd fns t'.tableSize i)
  same : ¬t.Grows alloc → g = false ∧ t' = t

/-- The growth of a space-optimised table. -/
theorem hashTableGrowSpaceOpt_spec (hlaw : Lawful fns key resilient) (hwf : t.WellFormed fns key)
    {slot : ℕ → Option α} (hslots : t.nodes = .slots slot) (hrehash : t.canRehash = true)
    (hnext : hashTableNextSize t.tableSize ≠ 0) :
    ∃ t' g, t.hashTableGrowSpaceOpt fns slot (hashTableNextSize t.tableSize) alloc =
      some (t', g) ∧ GrownTo fns key alloc t t' g := by
  have hopt : t.isSpaceOpt = true := by rw [isSpaceOpt, hslots]
  obtain ⟨-, -, -, hplain⟩ := wellFormed_slots hwf hslots
  by_cases hmem : alloc.nodes = true ∧
      (spaceOptLimit < hashTableNextSize t.tableSize → alloc.listNodePool = true)
  · obtain ⟨t', hgrow, hkept, hsize, hlists⟩ :=
      hashTableGrowSpaceOpt_grown hlaw hwf hslots (hashTableNextSize_gt hnext) hmem.1 hmem.2
    refine ⟨t', true, hgrow, hkept, fun _ => ⟨rfl, hsize, fun i _ => ?_⟩,
      fun hnot => absurd ⟨hrehash, hnext, hmem.1, fun _ => hmem.2⟩ hnot⟩
    exact ⟨fun htree => absurd htree (hlists i),
      fun h => by rw [h.2.2.1] at hplain; cases hplain⟩
  · exact ⟨t, false, hashTableGrowSpaceOpt_same slot hmem, Kept.refl hwf,
      fun h => absurd ⟨h.2.2.1, h.2.2.2 hopt⟩ hmem, fun _ => ⟨rfl, rfl⟩⟩

/-- The growth of a table of plain lists. -/
theorem hashTableGrowListNodes_spec (hlaw : Lawful fns key resilient) (hwf : t.WellFormed fns key)
    {head : ℕ → Bucket α} (hbuckets : t.nodes = .buckets head) (hrehash : t.canRehash = true)
    (hnext : hashTableNextSize t.tableSize ≠ 0) (hplain : t.collisionResilient = false) :
    ∃ t' g, t.hashTableGrowListNodes fns head (hashTableNextSize t.tableSize) alloc = (t', g) ∧
      GrownTo fns key alloc t t' g := by
  have hopt : t.isSpaceOpt = false := by rw [isSpaceOpt, hbuckets]
  have hlarger := hashTableNextSize_gt hnext
  by_cases hmem : alloc.nodes = true
  · obtain ⟨t', hgrow, hkept, hsize, hlists⟩ :=
      hashTableGrowListNodes_grown hlaw hwf hbuckets hplain (Nat.zero_lt_of_lt hlarger) hmem
    refine ⟨t', true, hgrow, hkept, fun _ => ⟨rfl, hsize, fun i _ => ?_⟩,
      fun hnot => absurd ⟨hrehash, hnext, hmem, fun h => by rw [hopt] at h; cases h⟩ hnot⟩
    exact ⟨fun htree => absurd htree (hlists i),
      fun h => by rw [h.2.2.1] at hplain; cases hplain⟩
  · exact ⟨t, false, by rw [hashTableGrowListNodes, if_neg hmem], Kept.refl hwf,
      fun h => absurd h.2.2.1 hmem, fun _ => ⟨rfl, rfl⟩⟩

variable [DecidableEq α]

/-- A collision-resilient table that is to grow does not get the puddles or elements that its
nodes or one of its new trees take. -/
def Crashes (t : J9HashTable α) (fns : HashFunctions α) (alloc : Allocations α) : Prop :=
  t.canRehash = true ∧ hashTableNextSize t.tableSize ≠ 0 ∧ t.isSpaceOpt = false ∧
    t.collisionResilient = true ∧ (alloc.listCapacity = false ∨ alloc.nodes = true ∧
      ((∃ node ∈ t.nodes.treeNodes t.tableSize, alloc.listCopy node.address = none) ∨
        ∃ i < hashTableNextSize t.tableSize,
          t.Converts alloc i (t.crowd fns (hashTableNextSize t.tableSize) i) ∧
            alloc.treeCapacity i = false))

/-- The table that the entry is added to, after it has grown or not. -/
def grown (t : J9HashTable α) (fns : HashFunctions α) (alloc : Allocations α) :
    Option (J9HashTable α × Bool) :=
  if t.canRehash then t.hashTableGrow fns alloc else some (t, false)

/-- The growth of a collision-resilient table, unless it crashes. -/
theorem collisionResilientHashTableGrow_spec (hlaw : Lawful fns key t.collisionResilient)
    (hwf : t.WellFormed fns key) (hwalks : t.WalksNodes alloc) {head : ℕ → Bucket α}
    (hbuckets : t.nodes = .buckets head) (hrehash : t.canRehash = true)
    (hnext : hashTableNextSize t.tableSize ≠ 0) (hresilient : t.collisionResilient = true)
    (hsafe : ¬t.Crashes fns alloc) :
    ∃ t' g, t.collisionResilientHashTableGrow fns (hashTableNextSize t.tableSize) alloc =
      some (t', g) ∧ GrownTo fns key alloc t t' g := by
  have hopt : t.isSpaceOpt = false := by rw [isSpaceOpt, hbuckets]
  have hlarger := hashTableNextSize_gt hnext
  have hfits : ¬(alloc.listCapacity = false ∨ alloc.nodes = true ∧
      ((∃ node ∈ t.nodes.treeNodes t.tableSize, alloc.listCopy node.address = none) ∨
        ∃ i < hashTableNextSize t.tableSize,
          t.Converts alloc i (t.crowd fns (hashTableNextSize t.tableSize) i) ∧
            alloc.treeCapacity i = false)) :=
    fun hfail => hsafe ⟨hrehash, hnext, hopt, hresilient, hfail⟩
  have hcapacity : alloc.listCapacity = true := by
    by_contra hnone
    exact hfits (Or.inl (by simpa using hnone))
  rw [collisionResilientHashTableGrow, if_pos hcapacity]
  by_cases hmem : alloc.nodes = true
  · obtain ⟨t', hrebuild, hkept, hsize, htrees⟩ := rebuildFromPools_some hlaw hwf hbuckets
      hresilient (hwalks.list head hbuckets) hwalks.tree (Nat.zero_lt_of_lt hlarger)
      (fun node hnode hnone => hfits (Or.inr ⟨hmem, Or.inl ⟨node, hnode, hnone⟩⟩))
      (fun i hi hconv => by
        by_contra hnone
        exact hfits (Or.inr ⟨hmem, Or.inr ⟨i, hi, hconv, by simpa using hnone⟩⟩))
    refine ⟨t', true, ?_, hkept, fun _ => ⟨rfl, hsize, fun i hi => ?_⟩,
      fun hnot => absurd ⟨hrehash, hnext, hmem, fun h => by rw [hopt] at h; cases h⟩ hnot⟩
    · rw [if_pos hmem, hrebuild]
      rfl
    · rw [hsize] at hi ⊢
      exact htrees i hi
  · exact ⟨t, false, by rw [if_neg hmem], Kept.refl hwf, fun h => absurd h.2.2.1 hmem,
      fun _ => ⟨rfl, rfl⟩⟩

/-- A table that does not crash has grown or is the same. -/
theorem grown_some (hlaw : Lawful fns key t.collisionResilient) (hwf : t.WellFormed fns key)
    (hwalks : t.WalksNodes alloc) (hsafe : ¬t.Crashes fns alloc) :
    ∃ t' g, t.grown fns alloc = some (t', g) ∧ GrownTo fns key alloc t t' g := by
  by_cases hrehash : t.canRehash = true
  · rw [grown, if_pos hrehash, hashTableGrow]
    by_cases hnext : hashTableNextSize t.tableSize = 0
    · exact ⟨t, false, if_pos hnext, Kept.refl hwf, fun h => absurd hnext h.2.1,
        fun _ => ⟨rfl, rfl⟩⟩
    · rw [if_neg hnext]
      cases hnodes : t.nodes with
      | slots slot => exact hashTableGrowSpaceOpt_spec hlaw hwf hnodes hrehash hnext
      | buckets head =>
        by_cases hresilient : t.collisionResilient = true
        · simp only [if_pos hresilient]
          exact collisionResilientHashTableGrow_spec hlaw hwf hwalks hnodes hrehash hnext
            hresilient hsafe
        · simp only [if_neg hresilient]
          obtain ⟨t', g, hrun, hspec⟩ := hashTableGrowListNodes_spec hlaw hwf hnodes hrehash hnext
            (by simpa using hresilient)
          exact ⟨t', g, congrArg some hrun, hspec⟩
  · exact ⟨t, false, by rw [grown, if_neg hrehash], Kept.refl hwf, fun h => absurd h.1 hrehash,
      fun _ => ⟨rfl, rfl⟩⟩

/-- A table that crashes has no result. -/
theorem grown_none (hwalks : t.WalksNodes alloc) (h : t.Crashes fns alloc) :
    t.grown fns alloc = none := by
  obtain ⟨hrehash, hnext, hopt, hresilient, hfail⟩ := h
  rw [grown, if_pos hrehash, hashTableGrow, if_neg hnext]
  cases hnodes : t.nodes with
  | slots slot =>
    rw [isSpaceOpt, hnodes] at hopt
    cases hopt
  | buckets head =>
    simp only [hresilient, if_true, collisionResilientHashTableGrow]
    by_cases hcapacity : alloc.listCapacity = true
    · obtain ⟨hmem, hfull⟩ := hfail.resolve_left (by simp [hcapacity])
      rw [if_pos hcapacity, if_pos hmem,
        rebuildFromPools_none hnodes (hwalks.list head hnodes) hwalks.tree hfull]
      rfl
    · rw [if_neg hcapacity]

end J9HashTable

end OMR.Util.Hash
