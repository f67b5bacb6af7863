import OMR.Compiler.HashTab

/-!
# What a hash table represents

The chain of each bucket is a list of indices, which hold the keys of the bucket. From these
lists it follows what is located and where an entry is appended.
-/

namespace OMR.Compiler.HashTab

variable {K D : Type*}

/-- The entries at the indices are chained in this order, and the chain ends. -/
def Linked (t : HashTab K D) : List ℕ → Prop
  | [] => True
  | i :: rest => (∃ e, t.table i = some e ∧ e.chain = rest.head?.getD 0) ∧ t.Linked rest

/-- The entry at an index without its chain. -/
def content (t : HashTab K D) (i : ℕ) : Option (K × D) :=
  (t.table i).map fun e => (e.key, e.data)

theorem content_eq_some {t : HashTab K D} {i : ℕ} {key : K} {data : D} :
    t.content i = some (key, data) ↔ ∃ chain, t.table i = some ⟨key, data, chain⟩ := by
  rw [content, Option.map_eq_some_iff]
  constructor
  · rintro ⟨⟨key', data', chain⟩, he, heq⟩
    cases heq
    exact ⟨chain, he⟩
  · rintro ⟨chain, he⟩
    exact ⟨_, he, rfl⟩

theorem content_of_table {t : HashTab K D} {i : ℕ} {e : HashTableEntry K D}
    (he : t.table i = some e) : t.content i = some (e.key, e.data) :=
  content_eq_some.2 ⟨e.chain, he⟩

theorem content_update (t : HashTab K D) (i : ℕ) (e : HashTableEntry K D) :
    content { t with table := Function.update t.table i (some e) } =
      Function.update t.content i (some (e.key, e.data)) := by
  funext j
  by_cases hj : j = i
  · subst hj
    simp [content]
  · simp [content, Function.update_of_ne hj]

section Linked

variable {t t' : HashTab K D} {l : List ℕ} {i n : ℕ}

/-- Only the chains of the entries matter. -/
theorem Linked.congr (h : t.Linked l)
    (hsame : ∀ j ∈ l, (t'.table j).map (·.chain) = (t.table j).map (·.chain)) : t'.Linked l := by
  induction l with
  | nil => trivial
  | cons j l ih =>
    obtain ⟨⟨e, he, hchain⟩, hrest⟩ := h
    have hj := hsame j List.mem_cons_self
    rw [he, Option.map_some] at hj
    obtain ⟨e', he', hchain'⟩ := Option.map_eq_some_iff.1 hj
    exact ⟨⟨e', he', hchain'.trans hchain⟩, ih hrest fun k hk => hsame k (List.mem_cons_of_mem _ hk)⟩

/-- The last entry of a chain. -/
theorem Linked.chain_last {l : List ℕ} (h : t.Linked (l ++ [i])) :
    ∃ e, t.table i = some e ∧ e.chain = 0 := by
  induction l with
  | nil => exact h.1
  | cons j l ih => exact ih h.2

/-- A chain is prolonged by an index behind its last one. -/
theorem Linked.append {e new : HashTableEntry K D} (h : t.Linked (l ++ [i]))
    (hlast : t'.table i = some e) (hchain : e.chain = n)
    (hnew : t'.table n = some new) (hend : new.chain = 0)
    (hsame : ∀ j ∈ l, t'.table j = t.table j) : t'.Linked (l ++ [i, n]) := by
  induction l with
  | nil => exact ⟨⟨e, hlast, hchain⟩, ⟨new, hnew, hend⟩, trivial⟩
  | cons j l ih =>
    obtain ⟨⟨ej, hej, hjchain⟩, hrest⟩ := h
    refine ⟨⟨ej, ?_, ?_⟩, ih hrest fun k hk => hsame k (List.mem_cons_of_mem _ hk)⟩
    · rw [hsame j List.mem_cons_self, hej]
    · rw [hjchain]
      cases l <;> rfl

end Linked

variable (calculateHash : K → ℕ)

/-- The table holds the keys, with the data that `contents` has for them, and the lists are
the indices of each bucket. -/
structure Represents (t : HashTab K D) (lists : ℕ → List ℕ) (contents : K → Option D)
    (keys : Finset K) : Prop where
  sized : ∃ k, 4 ≤ k ∧ t.closedAreaSize = 2 ^ k ∧ t.mask = 2 ^ k - 1 ∧
    t.tableSize = 2 ^ k + 2 ^ k / 4
  nextFree_lt : t.nextFree < t.tableSize
  head : ∀ b, lists b = [] ∨ ∃ rest, lists b = b :: rest
  linked : ∀ b, t.Linked (lists b)
  tail : ∀ b, ∀ i ∈ (lists b).tail, t.closedAreaSize < i ∧ i < t.nextFree
  nodup : ∀ b, (lists b).Nodup
  mem_lists : ∀ b i, i ∈ lists b ↔
    ∃ key data, t.content i = some (key, data) ∧ t.bucketOf calculateHash key = b
  key_injective : ∀ i j key data data',
    t.content i = some (key, data) → t.content j = some (key, data') → i = j
  mem_keys : ∀ key, key ∈ keys ↔ ∃ i data, t.content i = some (key, data)
  contents_eq : ∀ key data, contents key = some data ↔ ∃ i, t.content i = some (key, data)
  count : t.nextFree + (keys.image (t.bucketOf calculateHash)).card =
    t.closedAreaSize + 1 + keys.card

namespace Represents

variable {calculateHash} {t : HashTab K D} {lists : ℕ → List ℕ} {contents : K → Option D}
  {keys : Finset K} {key : K} {b i : ℕ}

theorem bucketOf_bounds (h : Represents calculateHash t lists contents keys) (key : K) :
    1 ≤ t.bucketOf calculateHash key ∧ t.bucketOf calculateHash key ≤ t.closedAreaSize := by
  obtain ⟨k, -, hclosed, hmask, -⟩ := h.sized
  rw [bucketOf, hmask, hclosed, Nat.and_two_pow_sub_one_eq_mod]
  exact ⟨Nat.le_add_left 1 _, Nat.mod_lt _ (Nat.two_pow_pos k)⟩

theorem closedAreaSize_lt (h : Represents calculateHash t lists contents keys) :
    t.closedAreaSize < t.nextFree := by
  have hcount := h.count
  have hle := Finset.card_image_le (s := keys) (f := t.bucketOf calculateHash)
  omega

/-- Entries stand before the next free index, and not at index 0. -/
theorem index_bounds (h : Represents calculateHash t lists contents keys) (hi : i ∈ lists b) :
    1 ≤ i ∧ i < t.nextFree := by
  have hclosed := h.closedAreaSize_lt
  obtain hnil | ⟨rest, hrest⟩ := h.head b
  · rw [hnil] at hi
    cases hi
  · have htail := h.tail b i
    rw [hrest] at htail hi
    obtain rfl | hi := List.mem_cons.1 hi
    · obtain ⟨key, data, -, hbucket⟩ := (h.mem_lists i i).1 (hrest ▸ List.mem_cons_self)
      have hbounds := h.bucketOf_bounds key
      omega
    · have hbounds := htail hi
      omega

theorem content_bounds (h : Represents calculateHash t lists contents keys) {data : D}
    (hi : t.content i = some (key, data)) : 1 ≤ i ∧ i < t.nextFree :=
  h.index_bounds ((h.mem_lists _ i).2 ⟨key, data, hi, rfl⟩)

theorem read_eq (h : Represents calculateHash t lists contents keys) (hi : i < t.nextFree) :
    t.read i = some (t.table i) := by
  rw [read, if_pos (hi.trans h.nextFree_lt)]

theorem deref_eq (h : Represents calculateHash t lists contents keys) (hi : i < t.nextFree) :
    t.deref i = t.table i := by
  rw [deref, h.read_eq hi]
  rfl

theorem length_le (h : Represents calculateHash t lists contents keys) (b : ℕ) :
    (lists b).length ≤ t.tableSize := by
  have hsub : lists b ⊆ List.range t.tableSize := fun i hi =>
    List.mem_range.2 ((h.index_bounds hi).2.trans h.nextFree_lt)
  have hle := ((h.nodup b).subperm hsub).length_le
  rwa [List.length_range] at hle

/-- An empty bucket is empty in the table. -/
theorem table_eq_none (h : Represents calculateHash t lists contents keys)
    (hb : b ≤ t.closedAreaSize) (hnil : lists b = []) : t.table b = none := by
  by_contra hsome
  obtain ⟨e, he⟩ := Option.ne_none_iff_exists'.1 hsome
  have hmem := (h.mem_lists _ b).2 ⟨e.key, e.data, content_of_table he, rfl⟩
  obtain hnil' | ⟨rest, hrest⟩ := h.head (t.bucketOf calculateHash e.key)
  · rw [hnil'] at hmem
    cases hmem
  · have htail := h.tail (t.bucketOf calculateHash e.key) b
    rw [hrest] at hmem htail
    obtain heq | hmem := List.mem_cons.1 hmem
    · rw [heq, hrest] at hnil
      cases hnil
    · exact absurd (htail hmem).1 (Nat.not_lt.2 hb)

theorem contents_eq_none (h : Represents calculateHash t lists contents keys) :
    contents key = none ↔ key ∉ keys := by
  rw [Option.eq_none_iff_forall_ne_some, h.mem_keys]
  constructor
  · rintro hnone ⟨i, data, hi⟩
    exact hnone data ((h.contents_eq key data).2 ⟨i, hi⟩)
  · intro hkey data hdata
    obtain ⟨i, hi⟩ := (h.contents_eq key data).1 hdata
    exact hkey ⟨i, data, hi⟩

variable [DecidableEq K]

/-- Where the loop of `locate` stops on a part of a chain that has the key. -/
theorem locateFrom_of_mem (h : Represents calculateHash t lists contents keys) {l : List ℕ}
    (hsub : ∀ j ∈ i :: l, j ∈ lists b) (hlinked : t.Linked (i :: l)) {fuel : ℕ}
    (hfuel : l.length < fuel) (hkey : ∃ j ∈ i :: l, ∃ data, t.content j = some (key, data)) :
    ∃ j data, t.locateFrom key fuel i = some (true, j) ∧ t.content j = some (key, data) := by
  induction fuel generalizing i l with
  | zero => exact absurd hfuel (Nat.not_lt_zero _)
  | succ fuel ih =>
    obtain ⟨⟨e, he, hchain⟩, hrest⟩ := hlinked
    have hbounds := h.index_bounds (hsub i List.mem_cons_self)
    simp only [locateFrom, h.deref_eq hbounds.2, he, Option.bind_some]
    by_cases heq : e.key = key
    · rw [if_pos heq]
      exact ⟨i, e.data, rfl, heq ▸ content_of_table he⟩
    · rw [if_neg heq]
      obtain ⟨j, hj, data, hdata⟩ := hkey
      obtain rfl | hj := List.mem_cons.1 hj
      · rw [content_of_table he, Option.some.injEq, Prod.mk.injEq] at hdata
        exact absurd hdata.1 heq
      · cases l with
        | nil => cases hj
        | cons n l =>
          have hn := (h.index_bounds (hsub n (List.mem_cons_of_mem _ List.mem_cons_self))).1
          rw [List.head?_cons, Option.getD_some] at hchain
          rw [if_neg (by omega), hchain]
          exact ih (fun k hk => hsub k (List.mem_cons_of_mem _ hk)) hrest
            (Nat.lt_of_succ_lt_succ hfuel) ⟨j, hj, data, hdata⟩

/-- Where it stops on one that has not. -/
theorem locateFrom_of_notMem (h : Represents calculateHash t lists contents keys) {l : List ℕ}
    (hsub : ∀ j ∈ i :: l, j ∈ lists b) (hlinked : t.Linked (i :: l)) {fuel : ℕ}
    (hfuel : l.length < fuel) (hkey : key ∉ keys) :
    t.locateFrom key fuel i = some (false, (i :: l).getLast (List.cons_ne_nil i l)) := by
  induction fuel generalizing i l with
  | zero => exact absurd hfuel (Nat.not_lt_zero _)
  | succ fuel ih =>
    obtain ⟨⟨e, he, hchain⟩, hrest⟩ := hlinked
    have hbounds := h.index_bounds (hsub i List.mem_cons_self)
    simp only [locateFrom, h.deref_eq hbounds.2, he, Option.bind_some]
    have hne : e.key ≠ key := fun heq =>
      hkey ((h.mem_keys key).2 ⟨i, e.data, heq ▸ content_of_table he⟩)
    rw [if_neg hne]
    cases l with
    | nil =>
      have hzero : e.chain = 0 := hchain
      rw [if_pos hzero]
      rfl
    | cons n l =>
      have hn := (h.index_bounds (hsub n (List.mem_cons_of_mem _ List.mem_cons_self))).1
      rw [List.head?_cons, Option.getD_some] at hchain
      rw [if_neg (by omega), hchain, List.getLast_cons (List.cons_ne_nil n l)]
      exact ih (fun k hk => hsub k (List.mem_cons_of_mem _ hk)) hrest
        (Nat.lt_of_succ_lt_succ hfuel)

/-- `locate` at a bucket that is not empty is its loop. -/
theorem locate_eq (h : Represents calculateHash t lists contents keys) {rest : List ℕ}
    (hrest : lists (t.bucketOf calculateHash key) = t.bucketOf calculateHash key :: rest) :
    t.locate calculateHash key =
      t.locateFrom key t.tableSize (t.bucketOf calculateHash key) := by
  have hlinked := h.linked (t.bucketOf calculateHash key)
  have hbounds := h.index_bounds (i := t.bucketOf calculateHash key) (hrest ▸ List.mem_cons_self)
  rw [hrest] at hlinked
  obtain ⟨e, he, -⟩ := hlinked.1
  simp only [locate, h.read_eq hbounds.2, he, Option.bind_some]
  rfl

theorem locate_of_mem (h : Represents calculateHash t lists contents keys) (hkey : key ∈ keys) :
    ∃ i data, t.locate calculateHash key = some (true, i) ∧ t.content i = some (key, data) := by
  obtain ⟨i, data, hi⟩ := (h.mem_keys key).1 hkey
  have hmem := (h.mem_lists _ i).2 ⟨key, data, hi, rfl⟩
  have hlinked := h.linked (t.bucketOf calculateHash key)
  have hlen := h.length_le (t.bucketOf calculateHash key)
  obtain hnil | ⟨rest, hrest⟩ := h.head (t.bucketOf calculateHash key)
  · rw [hnil] at hmem
    cases hmem
  · rw [h.locate_eq hrest]
    rw [hrest] at hmem hlinked hlen
    exact h.locateFrom_of_mem (fun k hk => hrest ▸ hk) hlinked hlen ⟨i, hmem, data, hi⟩

/-- A key that is absent is located at its empty bucket or at the end of its chain. -/
theorem locate_of_notMem (h : Represents calculateHash t lists contents keys)
    (hkey : key ∉ keys) : ∃ i, t.locate calculateHash key = some (false, i) ∧
      (lists (t.bucketOf calculateHash key) = [] ∧ i = t.bucketOf calculateHash key ∨
        ∃ l, lists (t.bucketOf calculateHash key) = l ++ [i]) := by
  have hbounds := h.bucketOf_bounds key
  have hclosed := h.closedAreaSize_lt
  have hlinked := h.linked (t.bucketOf calculateHash key)
  have hlen := h.length_le (t.bucketOf calculateHash key)
  obtain hnil | ⟨rest, hrest⟩ := h.head (t.bucketOf calculateHash key)
  · refine ⟨_, ?_, .inl ⟨hnil, rfl⟩⟩
    simp only [locate, h.read_eq (hbounds.2.trans_lt hclosed), h.table_eq_none hbounds.2 hnil,
      Option.bind_some]
    rfl
  · rw [hrest] at hlinked hlen
    refine ⟨_, (h.locate_eq hrest).trans
      (h.locateFrom_of_notMem (fun k hk => hrest ▸ hk) hlinked hlen hkey), .inr ?_⟩
    refine ⟨(t.bucketOf calculateHash key :: rest).dropLast, ?_⟩
    rw [hrest, List.dropLast_append_getLast]

/-- Another entry at an index, with the same key and chain. -/
theorem update (h : Represents calculateHash t lists contents keys) {data data' : D} {chain : ℕ}
    (hi : t.table i = some ⟨key, data, chain⟩) :
    Represents calculateHash
      { t with table := Function.update t.table i (some ⟨key, data', chain⟩) } lists
      (Function.update contents key (some data')) keys := by
  have hcontent : t.content i = some (key, data) := content_of_table hi
  have hnew := content_update t i ⟨key, data', chain⟩
  generalize ht' :
    ({ t with table := Function.update t.table i (some ⟨key, data', chain⟩) } : HashTab K D) = t'
    at hnew ⊢
  have hold : ∀ j key', (∃ data, t'.content j = some (key', data)) ↔
      ∃ data, t.content j = some (key', data) := by
    intro j key'
    rw [hnew]
    by_cases hj : j = i
    · subst hj
      simp [hcontent]
    · rw [Function.update_of_ne hj]
  have hchains : ∀ j, (t'.table j).map (·.chain) = (t.table j).map (·.chain) := by
    intro j
    rw [← ht']
    by_cases hj : j = i
    · subst hj
      simp [hi]
    · simp [Function.update_of_ne hj]
  have hbucket : t'.bucketOf calculateHash = t.bucketOf calculateHash := by rw [← ht']; rfl
  exact {
    sized := by rw [← ht']; exact h.sized
    nextFree_lt := by rw [← ht']; exact h.nextFree_lt
    head := h.head
    linked := fun b => (h.linked b).congr fun j _ => hchains j
    tail := by rw [← ht']; exact h.tail
    nodup := h.nodup
    mem_lists := by
      intro b j
      rw [h.mem_lists b j, hbucket]
      constructor
      · rintro ⟨key', data, hj, hb⟩
        obtain ⟨data, hj⟩ := (hold j key').2 ⟨data, hj⟩
        exact ⟨key', data, hj, hb⟩
      · rintro ⟨key', data, hj, hb⟩
        obtain ⟨data, hj⟩ := (hold j key').1 ⟨data, hj⟩
        exact ⟨key', data, hj, hb⟩
    key_injective := by
      intro j k key' data₁ data₂ hj hk
      obtain ⟨data₁, hj⟩ := (hold j key').1 ⟨data₁, hj⟩
      obtain ⟨data₂, hk⟩ := (hold k key').1 ⟨data₂, hk⟩
      exact h.key_injective j k key' data₁ data₂ hj hk
    mem_keys := fun key' => (h.mem_keys key').trans (exists_congr fun j => (hold j key').symm)
    contents_eq := by
      intro key' d
      rw [hnew]
      by_cases hkey : key' = key
      · subst hkey
        rw [Function.update_self]
        constructor
        · rintro ⟨⟩
          exact ⟨i, Function.update_self ..⟩
        · rintro ⟨j, hj⟩
          by_cases hji : j = i
          · subst hji
            rw [Function.update_self] at hj
            cases hj
            rfl
          · rw [Function.update_of_ne hji] at hj
            exact absurd (h.key_injective j i key' d data hj hcontent) hji
      · rw [Function.update_of_ne hkey, h.contents_eq]
        refine exists_congr fun j => ?_
        by_cases hji : j = i
        · subst hji
          rw [Function.update_self, hcontent]
          simp [Ne.symm hkey]
        · rw [Function.update_of_ne hji]
    count := by rw [← ht']; exact h.count }

end Represents

end OMR.Compiler.HashTab
