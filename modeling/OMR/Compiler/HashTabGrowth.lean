import OMR.Compiler.HashTabAdd

/-!
# Growth of a hash table

The entries of a table whose overflow area is used up are added to one of twice the size,
which has room for all of them. So growth does not nest in itself there. A table of any other
size grows at most in this way while it is filled.
-/

namespace OMR.Compiler.HashTab

section Overflow

variable {K B : Type*} [DecidableEq K] [DecidableEq B] {keys all : Finset K}

/-- Fewer keys in more buckets collide less often. -/
theorem card_add_card_image_le {f g : K → B} (hsub : keys ⊆ all) {p : B → B}
    (hp : ∀ key, g key = p (f key)) :
    keys.card + (all.image g).card ≤ all.card + (keys.image f).card := by
  have hsplit : all.image g ⊆ (keys.image f).image p ∪ (all \ keys).image g := by
    intro b hb
    obtain ⟨key, hkey, rfl⟩ := Finset.mem_image.1 hb
    by_cases hmem : key ∈ keys
    · refine Finset.mem_union_left _ (Finset.mem_image.2 ⟨f key, ?_, (hp key).symm⟩)
      exact Finset.mem_image_of_mem f hmem
    · refine Finset.mem_union_right _ (Finset.mem_image_of_mem g ?_)
      exact Finset.mem_sdiff.2 ⟨hkey, hmem⟩
  have hcard := (Finset.card_le_card hsplit).trans (Finset.card_union_le _ _)
  have himage := Finset.card_image_le (s := keys.image f) (f := p)
  have hrest := Finset.card_image_le (s := all \ keys) (f := g)
  have hdiff := Finset.card_sdiff_add_card_eq_card hsub
  omega

end Overflow

variable {K D : Type*} {calculateHash : K → ℕ} {t t' : HashTab K D}
  {lists lists' : ℕ → List ℕ} {contents : K → Option D} {keys : Finset K}

theorem represents_initialized (newSize : ℕ) :
    Represents calculateHash (initialized newSize : HashTab K D) (fun _ => []) (fun _ => none) ∅ := by
  obtain ⟨k, hk, heq⟩ := initialized_eq (K := K) (D := D) newSize
  rw [heq]
  have hpow := Nat.pow_le_pow_right (n := 2) (by decide) hk
  exact {
    sized := ⟨k, hk, rfl, rfl, rfl⟩
    nextFree_lt := by
      change 2 ^ k + 1 < 2 ^ k + 2 ^ k / 4
      omega
    head := fun _ => .inl rfl
    linked := fun _ => trivial
    tail := fun _ i hi => by cases hi
    nodup := fun _ => List.nodup_nil
    mem_lists := by simp [content]
    key_injective := by simp [content]
    mem_keys := by simp [content]
    contents_eq := by simp [content]
    count := by simp }

namespace Represents

theorem mask_eq (h : Represents calculateHash t lists contents keys) :
    t.mask = t.closedAreaSize - 1 := by
  obtain ⟨k, -, hclosed, hmask, -⟩ := h.sized
  rw [hmask, hclosed]

theorem tableSize_eq (h : Represents calculateHash t lists contents keys) :
    t.tableSize = t.closedAreaSize + t.closedAreaSize / 4 := by
  obtain ⟨k, -, hclosed, -, hsize⟩ := h.sized
  rw [hsize, hclosed]

theorem mem_entries_iff (h : Represents calculateHash t lists contents keys)
    {e : HashTableEntry K D} : e ∈ t.entries ↔ ∃ i, t.table i = some e := by
  rw [entries, List.mem_filterMap]
  constructor
  · rintro ⟨i, -, he⟩
    exact ⟨i, he⟩
  · rintro ⟨i, he⟩
    have hbounds := h.content_bounds (content_of_table he)
    exact ⟨i, List.mem_range.2 (hbounds.2.trans h.nextFree_lt), he⟩

theorem entries_nodup (h : Represents calculateHash t lists contents keys) :
    (t.entries.map (·.key)).Nodup := by
  rw [entries, List.Nodup, List.pairwise_map, List.pairwise_filterMap]
  refine List.nodup_range.imp fun {i j} hne e he e' he' heq => hne ?_
  exact h.key_injective i j e.key e.data e'.data (content_of_table he)
    (heq ▸ content_of_table he')

theorem entries_contents (h : Represents calculateHash t lists contents keys)
    {e : HashTableEntry K D} (he : e ∈ t.entries) : contents e.key = some e.data := by
  obtain ⟨i, hi⟩ := h.mem_entries_iff.1 he
  exact (h.contents_eq e.key e.data).2 ⟨i, content_of_table hi⟩

theorem bucketOf_congr (h : Represents calculateHash t lists contents keys)
    {contents' : K → Option D} {keys' : Finset K}
    (h' : Represents calculateHash t' lists' contents' keys')
    (hclosed : t'.closedAreaSize = t.closedAreaSize) :
    t'.bucketOf calculateHash = t.bucketOf calculateHash := by
  funext key
  rw [bucketOf, bucketOf, h'.mask_eq, h.mask_eq, hclosed]

end Represents

variable [DecidableEq K]

/-- The contents that belong to some of the keys. -/
def heldAt (contents : K → Option D) (keys : Finset K) (key : K) : Option D :=
  if key ∈ keys then contents key else none

theorem heldAt_insert {e : HashTableEntry K D} (he : contents e.key = some e.data) :
    Function.update (heldAt contents keys) e.key (some e.data) =
      heldAt contents (insert e.key keys) := by
  funext key
  by_cases hkey : key = e.key
  · subst hkey
    rw [Function.update_self, heldAt, if_pos (Finset.mem_insert_self _ _), he]
  · rw [Function.update_of_ne hkey, heldAt, heldAt]
    simp only [Finset.mem_insert, hkey, false_or]

theorem represents_empty (contents : K → Option D) (newSize : ℕ) :
    Represents calculateHash (initialized newSize) (fun _ => []) (heldAt contents ∅) ∅ := by
  have hempty : heldAt contents ∅ = fun _ => none := by
    funext key
    rw [heldAt, if_neg (Finset.notMem_empty key)]
  rw [hempty]
  exact represents_initialized newSize

namespace Represents

theorem entries_keys (h : Represents calculateHash t lists contents keys) :
    (t.entries.map (·.key)).toFinset = keys := by
  ext key
  rw [List.mem_toFinset, List.mem_map, h.mem_keys]
  constructor
  · rintro ⟨e, he, rfl⟩
    obtain ⟨i, hi⟩ := h.mem_entries_iff.1 he
    exact ⟨i, e.data, content_of_table hi⟩
  · rintro ⟨i, data, hi⟩
    obtain ⟨chain, he⟩ := content_eq_some.1 hi
    exact ⟨_, h.mem_entries_iff.2 ⟨i, he⟩, rfl⟩

theorem heldAt_keys (h : Represents calculateHash t lists contents keys) :
    heldAt contents keys = contents := by
  funext key
  rw [heldAt]
  split
  · rfl
  · next hkey => exact (h.contents_eq_none.2 hkey).symm

/-- While no more keys come in than the overflow area has room for, the table does not grow. -/
theorem nextFree_ne_of_fits (h : Represents calculateHash t lists contents keys)
    {all : Finset K} (hsub : keys ⊆ all) (hfit : all.card + 2 <
      t.closedAreaSize / 4 + (all.image (t.bucketOf calculateHash)).card) :
    t.nextFree ≠ t.tableSize - 1 := by
  have hcount := h.count
  have hoverflow := card_add_card_image_le (f := t.bucketOf calculateHash)
    (g := t.bucketOf calculateHash) (p := id) hsub fun _ => rfl
  rw [h.tableSize_eq]
  omega

variable (grow : HashTab K D → ℕ → Option (HashTab K D)) {all : Finset K}

/-- The new keys among entries that are added without growth. -/
theorem addAll_of_fits (es : List (HashTableEntry K D))
    (h : Represents calculateHash t lists (heldAt contents keys) keys)
    (hes : ∀ e ∈ es, contents e.key = some e.data) (hnodup : (es.map (·.key)).Nodup)
    (hnew : ∀ e ∈ es, e.key ∉ keys) (hall : keys ∪ (es.map (·.key)).toFinset = all)
    (hfit : all.card + 2 < t.closedAreaSize / 4 + (all.image (t.bucketOf calculateHash)).card) :
    ∃ t' lists', addAll calculateHash grow es t = some t' ∧
      t'.closedAreaSize = t.closedAreaSize ∧
      Represents calculateHash t' lists' (heldAt contents all) all := by
  induction es generalizing t lists keys with
  | nil =>
    rw [List.map_nil, List.toFinset_nil, Finset.union_empty] at hall
    exact ⟨t, lists, rfl, rfl, hall ▸ h⟩
  | cons e es ih =>
    have hroom := h.nextFree_ne_of_fits (hall ▸ Finset.subset_union_left) hfit
    obtain ⟨t', lists', hadd, hclosed, h'⟩ :=
      h.addElementWith_of_notMem grow hroom (hnew e List.mem_cons_self)
    rw [heldAt_insert (hes e List.mem_cons_self)] at h'
    rw [List.map_cons, List.nodup_cons] at hnodup
    obtain ⟨t'', lists'', haddAll, hclosed', h''⟩ :=
      ih h' (fun e' he' => hes e' (List.mem_cons_of_mem _ he')) hnodup.2
        (fun e' he' hmem => by
          obtain heq | hmem := Finset.mem_insert.1 hmem
          · exact hnodup.1 (heq ▸ List.mem_map_of_mem he')
          · exact hnew e' (List.mem_cons_of_mem _ he') hmem)
        (by rw [← hall, List.map_cons, List.toFinset_cons, Finset.insert_union,
          Finset.union_insert])
        (by rwa [hclosed, h.bucketOf_congr h' hclosed])
    refine ⟨t'', lists'', ?_, hclosed'.trans hclosed, h''⟩
    rw [addAll, hadd, Option.bind_some]
    exact haddAll

/-- In twice as many buckets the keys of a full table fit. -/
theorem fits_of_doubled (h : Represents calculateHash t lists contents keys)
    (h' : Represents calculateHash t' lists' (heldAt contents ∅) ∅)
    (hclosed : t'.closedAreaSize = 2 * t.closedAreaSize) :
    keys.card + 2 < t'.closedAreaSize / 4 + (keys.image (t'.bucketOf calculateHash)).card := by
  obtain ⟨k, hk, hsize, hmask, -⟩ := h.sized
  have hmask' := h'.mask_eq
  rw [hclosed, hsize, ← pow_succ'] at hmask'
  have hcoarse : ∀ key, t.bucketOf calculateHash key =
      (t'.bucketOf calculateHash key - 1) % 2 ^ k + 1 := by
    intro key
    rw [bucketOf, bucketOf, hmask, hmask', Nat.and_two_pow_sub_one_eq_mod,
      Nat.and_two_pow_sub_one_eq_mod, Nat.add_sub_cancel,
      Nat.mod_mod_of_dvd _ (pow_dvd_pow 2 (Nat.le_succ k))]
  have hle := card_add_card_image_le (f := t'.bucketOf calculateHash)
    (g := t.bucketOf calculateHash) (p := fun b => (b - 1) % 2 ^ k + 1) (Finset.Subset.refl keys)
    hcoarse
  have hcount := h.count
  have hlt := h.nextFree_lt
  have hpow := Nat.pow_le_pow_right (n := 2) (by decide) hk
  rw [h.tableSize_eq] at hlt
  omega

/-- A full table is replaced by one with the same contents that is not full. No addition on
the way lets the new table grow. -/
theorem growAndRehash_of_full (h : Represents calculateHash t lists contents keys) (depth : ℕ) :
    ∃ t' lists', growAndRehash calculateHash (depth + 1) t (t.closedAreaSize * 5 / 4) = some t' ∧
      t'.nextFree ≠ t'.tableSize - 1 ∧ Represents calculateHash t' lists' contents keys := by
  obtain ⟨k, hk, hsize, -⟩ := h.sized
  have hinit : Represents calculateHash _ _ _ _ := represents_empty contents
    (t.closedAreaSize * 5 / 4)
  have hdouble : (initialized (t.closedAreaSize * 5 / 4) : HashTab K D).closedAreaSize =
      2 * t.closedAreaSize := by
    rw [hsize]
    exact initialized_quarter hk
  have hfit := h.fits_of_doubled hinit hdouble
  obtain ⟨t', lists', hadd, hclosed, h'⟩ := hinit.addAll_of_fits
    (growAndRehash calculateHash depth) t.entries (fun e => h.entries_contents)
    h.entries_nodup (fun e _ => Finset.notMem_empty _)
    (by rw [h.entries_keys, Finset.empty_union]) hfit
  refine ⟨t', lists', hadd, ?_, h.heldAt_keys ▸ h'⟩
  refine h'.nextFree_ne_of_fits (Finset.Subset.refl keys) ?_
  rwa [hinit.bucketOf_congr h' hclosed, hclosed]

variable (entry : HashTableEntry K D)

/-- Whether or not a table is full, an entry is added to one that has room. -/
theorem exists_room (h : Represents calculateHash t lists contents keys) (depth : ℕ) :
    ∃ t' lists', t'.nextFree ≠ t'.tableSize - 1 ∧
      Represents calculateHash t' lists' contents keys ∧ ∀ entry,
        t.addElementWith calculateHash (growAndRehash calculateHash (depth + 1)) entry =
          t'.addElementWith calculateHash (growAndRehash calculateHash (depth + 1)) entry := by
  by_cases hfull : t.nextFree = t.tableSize - 1
  · obtain ⟨t', lists', hgrow, hroom, h'⟩ := h.growAndRehash_of_full depth
    refine ⟨t', lists', hroom, h', fun entry => ?_⟩
    rw [addElementWith, if_pos hfull, hgrow, Option.bind_some, addElementWith, if_neg hroom,
      Option.bind_some]
  · exact ⟨t, lists, hfull, h, fun _ => rfl⟩

/-- Adding a key that is present leaves the contents alone. -/
theorem addElement_of_mem (h : Represents calculateHash t lists contents keys) (depth : ℕ)
    (hkey : entry.key ∈ keys) : ∃ t' lists',
      t.addElementWith calculateHash (growAndRehash calculateHash (depth + 1)) entry =
        some (false, t') ∧ Represents calculateHash t' lists' contents keys := by
  obtain ⟨t', lists', hroom, h', hadd⟩ := h.exists_room depth
  exact ⟨t', lists', (hadd entry).trans (h'.addElementWith_of_mem _ hroom hkey), h'⟩

/-- Adding a new key adds it to the contents. -/
theorem addElement_of_notMem (h : Represents calculateHash t lists contents keys) (depth : ℕ)
    (hkey : entry.key ∉ keys) : ∃ t' lists',
      t.addElementWith calculateHash (growAndRehash calculateHash (depth + 1)) entry =
        some (true, t') ∧
      Represents calculateHash t' lists' (Function.update contents entry.key (some entry.data))
        (insert entry.key keys) := by
  obtain ⟨t', lists', hroom, h', hadd⟩ := h.exists_room depth
  obtain ⟨t'', lists'', hentry, -, h''⟩ := h'.addElementWith_of_notMem _ hroom hkey
  exact ⟨t'', lists'', (hadd entry).trans hentry, h''⟩

/-- New keys among entries that are added, with growth as it is needed. -/
theorem addAll_of_growth (depth : ℕ) (es : List (HashTableEntry K D))
    (h : Represents calculateHash t lists (heldAt contents keys) keys)
    (hes : ∀ e ∈ es, contents e.key = some e.data) (hnodup : (es.map (·.key)).Nodup)
    (hnew : ∀ e ∈ es, e.key ∉ keys) (hall : keys ∪ (es.map (·.key)).toFinset = all) :
    ∃ t' lists', addAll calculateHash (growAndRehash calculateHash (depth + 1)) es t = some t' ∧
      Represents calculateHash t' lists' (heldAt contents all) all := by
  induction es generalizing t lists keys with
  | nil =>
    rw [List.map_nil, List.toFinset_nil, Finset.union_empty] at hall
    exact ⟨t, lists, rfl, hall ▸ h⟩
  | cons e es ih =>
    obtain ⟨t', lists', hadd, h'⟩ := h.addElement_of_notMem e depth (hnew e List.mem_cons_self)
    rw [heldAt_insert (hes e List.mem_cons_self)] at h'
    rw [List.map_cons, List.nodup_cons] at hnodup
    obtain ⟨t'', lists'', haddAll, h''⟩ :=
      ih h' (fun e' he' => hes e' (List.mem_cons_of_mem _ he')) hnodup.2
        (fun e' he' hmem => by
          obtain heq | hmem := Finset.mem_insert.1 hmem
          · exact hnodup.1 (heq ▸ List.mem_map_of_mem he')
          · exact hnew e' (List.mem_cons_of_mem _ he') hmem)
        (by rw [← hall, List.map_cons, List.toFinset_cons, Finset.insert_union,
          Finset.union_insert])
    refine ⟨t'', lists'', ?_, h''⟩
    rw [addAll, hadd, Option.bind_some]
    exact haddAll

/-- A table of any new size is filled with the same contents. -/
theorem growTo_eq (h : Represents calculateHash t lists contents keys) (depth newSize : ℕ) :
    ∃ t' lists', t.growTo calculateHash (depth + 2) newSize = some t' ∧
      Represents calculateHash t' lists' contents keys := by
  obtain ⟨t', lists', hadd, h'⟩ := (represents_empty contents newSize).addAll_of_growth depth
    t.entries (fun e => h.entries_contents) h.entries_nodup (fun e _ => Finset.notMem_empty _)
    (by rw [h.entries_keys, Finset.empty_union])
  exact ⟨t', lists', hadd, h.heldAt_keys ▸ h'⟩

end Represents

end OMR.Compiler.HashTab
