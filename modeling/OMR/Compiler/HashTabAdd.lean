import OMR.Compiler.HashTabInvariant

/-!
# Adding to a hash table that has room

A new key takes its bucket, or the next free index behind the chain of its bucket.
-/

namespace OMR.Compiler.HashTab

variable {K D : Type*} {calculateHash : K → ℕ} {t t' : HashTab K D}
  {lists lists' : ℕ → List ℕ} {contents : K → Option D} {keys : Finset K}

namespace Represents

variable [DecidableEq K] {key : K} {data : D} {n : ℕ}

/-- What is common to the two places where a new key can go: an index that was free is
appended to the list of the bucket. -/
theorem insert_key (h : Represents calculateHash t lists contents keys) (hkey : key ∉ keys)
    (hsized : t'.closedAreaSize = t.closedAreaSize ∧ t'.mask = t.mask ∧ t'.tableSize = t.tableSize)
    (hfree : t.nextFree ≤ t'.nextFree ∧ t'.nextFree < t.tableSize)
    (hcontent : t'.content = Function.update t.content n (some (key, data)))
    (hn : t.content n = none)
    (hlists : lists' = Function.update lists (t.bucketOf calculateHash key)
      (lists (t.bucketOf calculateHash key) ++ [n]))
    (hlinked : ∀ b, t'.Linked (lists' b))
    (hplace : lists (t.bucketOf calculateHash key) = [] ∧ n = t.bucketOf calculateHash key ∨
      lists (t.bucketOf calculateHash key) ≠ [] ∧ t.closedAreaSize < n ∧ n < t'.nextFree)
    (hcount : t'.nextFree + ((insert key keys).image (t.bucketOf calculateHash)).card =
      t.closedAreaSize + 1 + (insert key keys).card) :
    Represents calculateHash t' lists' (Function.update contents key (some data))
      (insert key keys) := by
  have hbucket : t'.bucketOf calculateHash = t.bucketOf calculateHash := by
    funext key
    rw [bucketOf, bucketOf, hsized.2.1]
  have hself : t'.content n = some (key, data) := by rw [hcontent, Function.update_self]
  have hother : ∀ i, i ≠ n → t'.content i = t.content i := fun i hi => by
    rw [hcontent, Function.update_of_ne hi]
  have habsent : ∀ i d, t.content i ≠ some (key, d) := fun i d hi =>
    hkey ((h.mem_keys key).2 ⟨i, d, hi⟩)
  have hmem : ∀ b i, i ∈ lists' b ↔ i ∈ lists b ∨ i = n ∧ b = t.bucketOf calculateHash key := by
    intro b i
    rw [hlists]
    by_cases hb : b = t.bucketOf calculateHash key
    · rw [hb, Function.update_self, List.mem_append, List.mem_singleton]
      simp
    · rw [Function.update_of_ne hb]
      simp [hb]
  have hfresh : ∀ b, n ∉ lists b := fun b hmem => by
    obtain ⟨key', d, hd, -⟩ := (h.mem_lists b n).1 hmem
    rw [hn] at hd
    cases hd
  exact {
    sized := by
      obtain ⟨k, hk, hclosed, hmask, hsize⟩ := h.sized
      exact ⟨k, hk, hsized.1.trans hclosed, hsized.2.1.trans hmask, hsized.2.2.trans hsize⟩
    nextFree_lt := hsized.2.2 ▸ hfree.2
    head := by
      intro b
      rw [hlists]
      by_cases hb : b = t.bucketOf calculateHash key
      · subst hb
        rw [Function.update_self]
        obtain ⟨hnil, rfl⟩ | ⟨hne, -⟩ := hplace
        · exact .inr ⟨[], by rw [hnil]; rfl⟩
        · obtain hnil | ⟨rest, hrest⟩ := h.head (t.bucketOf calculateHash key)
          · exact absurd hnil hne
          · exact .inr ⟨rest ++ [n], by rw [hrest]; rfl⟩
      · rw [Function.update_of_ne hb]
        exact h.head b
    linked := hlinked
    tail := by
      intro b i hi
      rw [hlists] at hi
      rw [hsized.1]
      by_cases hb : b = t.bucketOf calculateHash key
      · subst hb
        rw [Function.update_self] at hi
        obtain ⟨hnil, -⟩ | ⟨hne, hlow, hhigh⟩ := hplace
        · rw [hnil] at hi
          cases hi
        · rw [List.tail_append_of_ne_nil hne, List.mem_append, List.mem_singleton] at hi
          obtain hi | rfl := hi
          · have htail := h.tail _ i hi
            exact ⟨htail.1, htail.2.trans_le hfree.1⟩
          · exact ⟨hlow, hhigh⟩
      · rw [Function.update_of_ne hb] at hi
        have htail := h.tail b i hi
        exact ⟨htail.1, htail.2.trans_le hfree.1⟩
    nodup := by
      intro b
      rw [hlists]
      by_cases hb : b = t.bucketOf calculateHash key
      · subst hb
        rw [Function.update_self]
        exact (h.nodup _).append (List.nodup_singleton n)
          (List.disjoint_singleton.2 (hfresh _))
      · rw [Function.update_of_ne hb]
        exact h.nodup b
    mem_lists := by
      intro b i
      rw [hmem, hbucket]
      by_cases hi : i = n
      · subst hi
        rw [hself, eq_comm]
        simp [hfresh b, eq_comm]
      · rw [hother i hi, h.mem_lists b i]
        simp [hi]
    key_injective := by
      intro i j key' d d' hi hj
      by_cases hin : i = n
      · subst hin
        rw [hself] at hi
        cases hi
        by_contra hne
        rw [hother j (Ne.symm hne)] at hj
        exact habsent j d' hj
      · rw [hother i hin] at hi
        by_cases hjn : j = n
        · subst hjn
          rw [hself] at hj
          cases hj
          exact absurd hi (habsent i d)
        · rw [hother j hjn] at hj
          exact h.key_injective i j key' d d' hi hj
    mem_keys := by
      intro key'
      rw [Finset.mem_insert, h.mem_keys]
      constructor
      · rintro (rfl | ⟨i, d, hi⟩)
        · exact ⟨n, data, hself⟩
        · have hin : i ≠ n := fun hin => by rw [hin, hn] at hi; cases hi
          exact ⟨i, d, (hother i hin).trans hi⟩
      · rintro ⟨i, d, hi⟩
        by_cases hin : i = n
        · subst hin
          rw [hself] at hi
          cases hi
          exact .inl rfl
        · exact .inr ⟨i, d, (hother i hin).symm.trans hi⟩
    contents_eq := by
      intro key' d
      by_cases hkey' : key' = key
      · subst hkey'
        rw [Function.update_self]
        constructor
        · rintro ⟨⟩
          exact ⟨n, hself⟩
        · rintro ⟨i, hi⟩
          by_cases hin : i = n
          · subst hin
            rw [hself] at hi
            cases hi
            rfl
          · rw [hother i hin] at hi
            exact absurd hi (habsent i d)
      · rw [Function.update_of_ne hkey', h.contents_eq]
        refine exists_congr fun i => ?_
        by_cases hin : i = n
        · subst hin
          rw [hself, hn]
          simp [Ne.symm hkey']
        · rw [hother i hin]
    count := by rw [hsized.1, hbucket]; exact hcount }

omit [DecidableEq K] in
theorem lists_ne_nil_iff (h : Represents calculateHash t lists contents keys) (b : ℕ) :
    lists b ≠ [] ↔ b ∈ keys.image (t.bucketOf calculateHash) := by
  rw [Finset.mem_image]
  constructor
  · intro hne
    obtain ⟨i, hi⟩ := List.exists_mem_of_ne_nil _ hne
    obtain ⟨key, data, hdata, hb⟩ := (h.mem_lists b i).1 hi
    exact ⟨key, (h.mem_keys key).2 ⟨i, data, hdata⟩, hb⟩
  · rintro ⟨key, hkey, hb⟩
    obtain ⟨i, data, hdata⟩ := (h.mem_keys key).1 hkey
    exact List.ne_nil_of_mem ((h.mem_lists b i).2 ⟨key, data, hdata, hb⟩)

variable (grow : HashTab K D → ℕ → Option (HashTab K D)) {entry : HashTableEntry K D}

/-- The loop of `addElement` appends at once, since `locate` stopped at the end of the chain. -/
theorem appendFrom_of_end {fuel i : ℕ} {last : HashTableEntry K D} (hfuel : 0 < fuel)
    (hlast : t.deref i = some last) (hend : last.chain = 0) :
    t.appendFrom entry fuel i = (t.write i { last with chain := t.nextFree }).bind fun t' =>
      (t'.write t.nextFree entry).map fun t => (true, { t with nextFree := t.nextFree + 1 }) := by
  obtain ⟨fuel, rfl⟩ := Nat.exists_eq_succ_of_ne_zero hfuel.ne'
  rw [appendFrom, hlast, Option.bind_some, if_pos hend]

theorem addElementWith_of_mem (h : Represents calculateHash t lists contents keys)
    (hroom : t.nextFree ≠ t.tableSize - 1) (hkey : entry.key ∈ keys) :
    t.addElementWith calculateHash grow entry = some (false, t) := by
  obtain ⟨i, data, hlocate, -⟩ := h.locate_of_mem hkey
  rw [addElementWith, if_neg hroom, Option.bind_some, hlocate]
  rfl

/-- A new key in a bucket that is empty. -/
theorem add_at_bucket (h : Represents calculateHash t lists contents keys) (data : D)
    (hkey : key ∉ keys)
    (hnil : lists (t.bucketOf calculateHash key) = []) :
    ∃ lists', Represents calculateHash
      { t with
        table := Function.update t.table (t.bucketOf calculateHash key)
          (some ⟨key, data, 0⟩) } lists' (Function.update contents key (some data))
      (insert key keys) := by
  have hnone := h.table_eq_none (h.bucketOf_bounds key).2 hnil
  have hnew : t.bucketOf calculateHash key ∉ keys.image (t.bucketOf calculateHash) := by
    rw [← h.lists_ne_nil_iff, not_not]
    exact hnil
  refine ⟨_, h.insert_key hkey ⟨rfl, rfl, rfl⟩ ⟨le_rfl, h.nextFree_lt⟩
    (content_update t _ ⟨key, data, 0⟩) (by rw [content, hnone]; rfl) rfl ?_ (.inl ⟨hnil, rfl⟩) ?_⟩
  · intro b
    by_cases hb : b = t.bucketOf calculateHash key
    · subst hb
      rw [Function.update_self, hnil]
      exact ⟨⟨_, Function.update_self .., rfl⟩, trivial⟩
    · rw [Function.update_of_ne hb]
      refine (h.linked b).congr fun j hj => ?_
      have hj' : j ≠ t.bucketOf calculateHash key := by
        rintro rfl
        obtain ⟨key', data', hdata, -⟩ := (h.mem_lists b _).1 hj
        obtain ⟨chain, he⟩ := content_eq_some.1 hdata
        rw [hnone] at he
        cases he
      change (Function.update t.table _ _ j).map _ = _
      rw [Function.update_of_ne hj']
  · have hcount := h.count
    rw [Finset.image_insert, Finset.card_insert_of_notMem hnew, Finset.card_insert_of_notMem hkey]
    change t.nextFree + _ = _
    omega

/-- A new key behind the chain of its bucket. -/
theorem add_at_chain (h : Represents calculateHash t lists contents keys) (data : D)
    (hkey : key ∉ keys) (hroom : t.nextFree ≠ t.tableSize - 1) {l : List ℕ} {i : ℕ}
    {last : HashTableEntry K D} (hl : lists (t.bucketOf calculateHash key) = l ++ [i])
    (hlast : t.table i = some last) :
    ∃ lists', Represents calculateHash
      { t with
        nextFree := t.nextFree + 1
        table := Function.update
          (Function.update t.table i (some { last with chain := t.nextFree })) t.nextFree
          (some ⟨key, data, 0⟩) } lists' (Function.update contents key (some data))
      (insert key keys) := by
  have hclosed := h.closedAreaSize_lt
  have hlt := h.nextFree_lt
  have hnonempty : lists (t.bucketOf calculateHash key) ≠ [] := by
    rw [hl]
    exact List.append_ne_nil_of_right_ne_nil l (List.cons_ne_nil i [])
  have hold := (h.lists_ne_nil_iff _).1 hnonempty
  have himem : i ∈ lists (t.bucketOf calculateHash key) := by
    rw [hl]
    exact List.mem_append_right l List.mem_cons_self
  have hi : i < t.nextFree := (h.index_bounds himem).2
  have hnone : t.content t.nextFree = none := by
    by_contra hsome
    obtain ⟨⟨key', data'⟩, hdata⟩ := Option.ne_none_iff_exists'.1 hsome
    exact absurd (h.content_bounds hdata).2 (Nat.lt_irrefl _)
  have hcontent : content
      { t with table := Function.update t.table i (some { last with chain := t.nextFree }) } =
      t.content := by
    rw [content_update, ← content_of_table hlast, Function.update_eq_self]
  refine ⟨_, h.insert_key hkey ⟨rfl, rfl, rfl⟩ ⟨Nat.le_succ _, ?_⟩ ?_ hnone rfl ?_
    (.inr ⟨hnonempty, hclosed, Nat.lt_succ_self _⟩) ?_⟩
  · change t.nextFree + 1 < _
    omega
  · conv_rhs => rw [← hcontent]
    exact content_update
      { t with table := Function.update t.table i (some { last with chain := t.nextFree }) }
      t.nextFree ⟨key, data, 0⟩
  · have hsame : ∀ b, ∀ j ∈ lists b, j ≠ i → Function.update
        (Function.update t.table i (some { last with chain := t.nextFree })) t.nextFree
        (some ⟨key, data, 0⟩) j = t.table j := by
      intro b j hj hji
      rw [Function.update_of_ne (h.index_bounds hj).2.ne, Function.update_of_ne hji]
    intro b
    by_cases hb : b = t.bucketOf calculateHash key
    · subst hb
      have hlinked := h.linked (t.bucketOf calculateHash key)
      have hnodup := h.nodup (t.bucketOf calculateHash key)
      rw [hl] at hlinked hnodup
      rw [Function.update_self, hl, List.append_assoc]
      refine hlinked.append (e := { last with chain := t.nextFree }) ?_ rfl
        (Function.update_self ..) rfl fun j hj => ?_
      · change Function.update _ _ _ i = _
        rw [Function.update_of_ne hi.ne, Function.update_self]
      · refine hsame (t.bucketOf calculateHash key) j ?_ ?_
        · rw [hl]
          exact List.mem_append_left _ hj
        · rintro rfl
          exact (List.nodup_append.1 hnodup).2.2 j hj j List.mem_cons_self rfl
    · rw [Function.update_of_ne hb]
      refine (h.linked b).congr fun j hj => congrArg (Option.map _) (hsame b j hj ?_)
      -- An index is in the list of one bucket only.
      rintro rfl
      obtain ⟨key₁, data₁, hdata₁, hb₁⟩ := (h.mem_lists b j).1 hj
      obtain ⟨key₂, data₂, hdata₂, hb₂⟩ := (h.mem_lists _ j).1 himem
      rw [hdata₁] at hdata₂
      cases hdata₂
      exact hb (hb₁.symm.trans hb₂)
  · have hcount := h.count
    rw [Finset.image_insert, Finset.insert_eq_of_mem hold, Finset.card_insert_of_notMem hkey]
    change t.nextFree + 1 + _ = _
    omega

theorem addElementWith_of_notMem (h : Represents calculateHash t lists contents keys)
    (hroom : t.nextFree ≠ t.tableSize - 1) (hkey : entry.key ∉ keys) :
    ∃ t' lists', t.addElementWith calculateHash grow entry = some (true, t') ∧
      t'.closedAreaSize = t.closedAreaSize ∧
      Represents calculateHash t' lists' (Function.update contents entry.key (some entry.data))
        (insert entry.key keys) := by
  have hclosed := h.closedAreaSize_lt
  have hlt := h.nextFree_lt
  obtain ⟨i, hlocate, hplace⟩ := h.locate_of_notMem hkey
  rw [addElementWith, if_neg hroom, Option.bind_some, hlocate]
  obtain ⟨hnil, rfl⟩ | ⟨l, hl⟩ := hplace
  · have hbounds := h.bucketOf_bounds entry.key
    have hfirst := h.table_eq_none hbounds.2 hnil
    obtain ⟨lists', hnew⟩ := h.add_at_bucket entry.data hkey hnil
    refine ⟨_, lists', ?_, ?_, hnew⟩
    · simp only [Bool.false_eq_true, if_false, h.read_eq (hbounds.2.trans_lt hclosed), hfirst,
        Option.bind_some, Option.isNone_none, if_true]
      rw [write, if_pos (by omega)]
      rfl
    · rfl
  · obtain ⟨last, hlast, hend⟩ := Linked.chain_last (hl ▸ h.linked _)
    obtain ⟨lists', hnew⟩ := h.add_at_chain entry.data hkey hroom hl hlast
    have hi : i < t.nextFree := (h.index_bounds
      (hl ▸ List.mem_append_right l List.mem_cons_self)).2
    refine ⟨_, lists', ?_, ?_, hnew⟩
    · simp only [Bool.false_eq_true, if_false, h.read_eq hi, hlast, Option.bind_some,
        Option.isNone_some]
      rw [appendFrom_of_end (Nat.zero_lt_of_lt hlt) ((h.deref_eq hi).trans hlast) hend,
        write, if_pos (hi.trans hlt), Option.bind_some, write, if_pos hlt]
      rfl
    · rfl

end Represents

end OMR.Compiler.HashTab
