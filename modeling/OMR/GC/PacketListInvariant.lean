import OMR.GC.PacketList

/-!
# The packets of a packet list

A packet list represents one list of packets for each sublist. Each operation is
described by what it does to these lists.
-/

namespace OMR.GC.PacketList

open OMR.Lib

variable {ι : Type*}

/-- The sublists of `m` are the lists of `L`. -/
structure Represents (m : PacketList ι) (L : ℕ → List ι) : Prop where
  linked : ∀ i < m.sublistCount, DoublyLinked m.next m.previous (L i)
  ends : ∀ i < m.sublistCount, m.sublists i = ⟨(L i).head?, (L i).getLast?⟩
  index : ∀ i < m.sublistCount, ∀ p ∈ L i, m.sublistIndex p = i
  nodup : ∀ i < m.sublistCount, (L i).Nodup
  disjoint : ∀ i < m.sublistCount, ∀ j < m.sublistCount, i ≠ j → (L i).Disjoint (L j)
  count : m.count = ∑ i ∈ Finset.range m.sublistCount, (L i).length

/-- The packets on the list are exactly those of `contents`. -/
def Contains (m : PacketList ι) (L : ℕ → List ι) (contents : Set ι) : Prop :=
  ∀ p, p ∈ contents ↔ ∃ i < m.sublistCount, p ∈ L i

namespace Represents

variable {m m' : PacketList ι} {L : ℕ → List ι} {i : ℕ} {l : List ι}

theorem sum_update (f : ℕ → List ι) {n : ℕ} (hi : i < n) (l : List ι) :
    ∑ j ∈ Finset.range n, (Function.update f i l j).length + (f i).length =
      ∑ j ∈ Finset.range n, (f j).length + l.length := by
  have hmem : i ∈ Finset.range n := Finset.mem_range.2 hi
  rw [← Finset.add_sum_erase _ _ hmem, ← Finset.add_sum_erase _ (fun j => (f j).length) hmem]
  have hrest : ∑ j ∈ (Finset.range n).erase i, (Function.update f i l j).length =
      ∑ j ∈ (Finset.range n).erase i, (f j).length :=
    Finset.sum_congr rfl fun j hj => by rw [Function.update_of_ne (Finset.ne_of_mem_erase hj)]
  rw [hrest, Function.update_self]
  omega

/-- An operation on one sublist leaves the others as they are. -/
theorem replace (h : m.Represents L) (hi : i < m.sublistCount)
    (hcount' : m'.sublistCount = m.sublistCount)
    (hsublists : m'.sublists = Function.update m.sublists i ⟨l.head?, l.getLast?⟩)
    (hlinked : DoublyLinked m'.next m'.previous l) (hindex : ∀ p ∈ l, m'.sublistIndex p = i)
    (hnodup : l.Nodup)
    (hframe : ∀ j < m.sublistCount, j ≠ i → ∀ p ∈ L j, p ∉ l ∧ m'.next p = m.next p ∧
      m'.previous p = m.previous p ∧ m'.sublistIndex p = m.sublistIndex p)
    (hcount : m'.count + (L i).length = m.count + l.length) :
    m'.Represents (Function.update L i l) where
  linked j hj := by
    rw [hcount'] at hj
    by_cases hji : j = i
    · rw [hji, Function.update_self]
      exact hlinked
    · rw [Function.update_of_ne hji]
      exact (h.linked j hj).congr (fun p hp => (hframe j hj hji p hp).2.1)
        fun p hp => (hframe j hj hji p hp).2.2.1
  ends j hj := by
    rw [hcount'] at hj
    rw [hsublists]
    by_cases hji : j = i
    · rw [hji, Function.update_self, Function.update_self]
    · rw [Function.update_of_ne hji, Function.update_of_ne hji]
      exact h.ends j hj
  index j hj p hp := by
    rw [hcount'] at hj
    by_cases hji : j = i
    · rw [hji, Function.update_self] at hp
      exact (hindex p hp).trans hji.symm
    · rw [Function.update_of_ne hji] at hp
      exact (hframe j hj hji p hp).2.2.2.trans (h.index j hj p hp)
  nodup j hj := by
    rw [hcount'] at hj
    by_cases hji : j = i
    · rw [hji, Function.update_self]
      exact hnodup
    · rw [Function.update_of_ne hji]
      exact h.nodup j hj
  disjoint j hj k hk hjk := by
    rw [hcount'] at hj hk
    by_cases hji : j = i
    · subst hji
      rw [Function.update_self, Function.update_of_ne hjk.symm]
      exact fun p hp hp' => (hframe k hk hjk.symm p hp').1 hp
    · rw [Function.update_of_ne hji]
      by_cases hki : k = i
      · subst hki
        rw [Function.update_self]
        exact fun p hp hp' => (hframe j hj hji p hp).1 hp'
      · rw [Function.update_of_ne hki]
        exact h.disjoint j hj k hk hjk
  count := by
    rw [hcount']
    have hsum := sum_update L hi l
    rw [← h.count] at hsum
    omega

/-- What replacing one sublist does to the packets on the list. -/
theorem contains_replace {contents' : Set ι} (hi : i < m.sublistCount) (hcount' : m'.sublistCount = m.sublistCount)
    (hiff : ∀ p, p ∈ contents' ↔ p ∈ l ∨ ∃ j < m.sublistCount, j ≠ i ∧ p ∈ L j) :
    m'.Contains (Function.update L i l) contents' := by
  intro p
  rw [hiff, hcount']
  constructor
  · rintro (hp | ⟨j, hj, hji, hp⟩)
    · exact ⟨i, hi, by rwa [Function.update_self]⟩
    · exact ⟨j, hj, by rwa [Function.update_of_ne hji]⟩
  · rintro ⟨j, hj, hp⟩
    by_cases hji : j = i
    · rw [hji, Function.update_self] at hp
      exact .inl hp
    · rw [Function.update_of_ne hji] at hp
      exact .inr ⟨j, hj, hji, hp⟩

theorem initialized (next previous : ι → Option ι) (sublistIndex : ι → ℕ) (n : ℕ) :
    (PacketList.initialized next previous sublistIndex n).Represents fun _ => [] where
  linked _ _ := .nil
  ends _ _ := rfl
  index _ _ _ hp := by cases hp
  nodup _ _ := List.nodup_nil
  disjoint _ _ _ _ _ := List.disjoint_nil_left _
  count := by simp [PacketList.initialized]

theorem ends_head (h : m.Represents L) (hi : i < m.sublistCount) :
    (m.sublists i).head = (L i).head? := by
  rw [h.ends i hi]

theorem ends_tail (h : m.Represents L) (hi : i < m.sublistCount) :
    (m.sublists i).tail = (L i).getLast? := by
  rw [h.ends i hi]

variable [DecidableEq ι]

/-! ### push and pop -/

theorem push (h : m.Represents L) (hpos : 0 < m.sublistCount) (environmentId : ℕ) {packet : ι}
    (hnew : ∀ j < m.sublistCount, packet ∉ L j) :
    let i := m.getSublistIndex environmentId
    (m.push environmentId packet).Represents (Function.update L i (packet :: L i)) := by
  intro i
  have hi : i < m.sublistCount := Nat.mod_lt _ hpos
  have hnodup : (packet :: L i).Nodup := List.nodup_cons.2 ⟨hnew i hi, h.nodup i hi⟩
  have hne {p : ι} {j : ℕ} (hj : j < m.sublistCount) (hp : p ∈ L j) : p ≠ packet :=
    fun hpp => hnew j hj (hpp ▸ hp)
  have hframe (j : ℕ) (hj : j < m.sublistCount) (hji : j ≠ i) (p : ι) (hp : p ∈ L j) :
      p ∉ packet :: L i := by
    rw [List.mem_cons, not_or]
    exact ⟨hne hj hp, h.disjoint j hj i hi hji hp⟩
  -- the links of the packet itself, before the first packet of the sublist is made to follow it
  have hold : DoublyLinked (Function.update m.next packet none)
      (Function.update m.previous packet none) (L i) :=
    (h.linked i hi).congr (fun p hp => Function.update_of_ne (hne hi hp) ..)
      fun p hp => Function.update_of_ne (hne hi hp) ..
  have hone : DoublyLinked (Function.update m.next packet none)
      (Function.update m.previous packet none) [packet] :=
    ⟨⟨Function.update_self .., trivial⟩, Function.update_self .., trivial⟩
  have hindex (p : ι) (hp : p ∈ packet :: L i) :
      Function.update m.sublistIndex packet i p = i := by
    rcases List.mem_cons.1 hp with rfl | hp
    · exact Function.update_self ..
    · rw [Function.update_of_ne (hne hi hp)]
      exact h.index i hi p hp
  have hcount : m.count + 1 + (L i).length = m.count + (packet :: L i).length := by
    rw [List.length_cons]
    omega
  cases hhead : (m.sublists i).head with
  | none =>
    have hnil : L i = [] := List.head?_eq_none_iff.1 ((h.ends_head hi).symm.trans hhead)
    have hm' : m.push environmentId packet =
        { m with
          next := Function.update m.next packet none
          previous := Function.update m.previous packet none
          sublistIndex := Function.update m.sublistIndex packet i
          count := m.count + 1
          sublists := Function.update m.sublists i ⟨some packet, some packet⟩ } := by
      simp only [PacketList.push, hhead, i]
    rw [hm']
    refine h.replace hi rfl (by rw [hnil]; rfl) (by rw [hnil]; exact hone) hindex hnodup ?_ hcount
    intro j hj hji p hp
    exact ⟨hframe j hj hji p hp, Function.update_of_ne (hne hj hp) ..,
      Function.update_of_ne (hne hj hp) .., Function.update_of_ne (hne hj hp) ..⟩
  | some head =>
    have hhead' : (L i).head? = some head := (h.ends_head hi).symm.trans hhead
    have hm' : m.push environmentId packet =
        { m with
          next := Function.update m.next packet (some head)
          previous := Function.update (Function.update m.previous packet none) head (some packet)
          sublistIndex := Function.update m.sublistIndex packet i
          count := m.count + 1
          sublists := Function.update m.sublists i ⟨some packet, (m.sublists i).tail⟩ } := by
      simp only [PacketList.push, hhead, i]
    have hlast : [packet].getLast? = some packet := rfl
    have hlinked := hone.splice hold hnodup hlast hhead'
    rw [Function.update_idem] at hlinked
    rw [hm']
    refine h.replace hi rfl ?_ hlinked hindex hnodup ?_ hcount
    · have hlast : (packet :: L i).getLast? = (L i).getLast? := by
        obtain ⟨rest, hrest⟩ := List.head?_eq_some_iff.1 hhead'
        rw [hrest]
        rfl
      rw [hlast, h.ends_tail hi]
      rfl
    · intro j hj hji p hp
      have hph : p ≠ head := fun hph =>
        h.disjoint j hj i hi hji hp (hph ▸ List.mem_of_head? hhead')
      exact ⟨hframe j hj hji p hp, Function.update_of_ne (hne hj hp) ..,
        (Function.update_of_ne hph ..).trans (Function.update_of_ne (hne hj hp) ..),
        Function.update_of_ne (hne hj hp) ..⟩

theorem popSublist (h : m.Represents L) (hi : i < m.sublistCount) {packet : ι} {rest : List ι}
    (hL : L i = packet :: rest) :
    (m.popSublist i packet).Represents (Function.update L i rest) := by
  have hlinked := h.linked i hi
  have hnodup := h.nodup i hi
  have hindex := h.index i hi
  have htail := h.ends_tail hi
  rw [hL] at hlinked hnodup hindex htail
  have hsub : ∀ p ∈ rest, p ∈ L i := fun p hp => hL ▸ List.mem_cons_of_mem _ hp
  have hout (j : ℕ) (hj : j < m.sublistCount) (hji : j ≠ i) (p : ι) (hp : p ∈ L j) : p ∉ rest :=
    fun hp' => h.disjoint j hj i hi hji hp (hsub p hp')
  have hpos : 0 < m.count := by
    have hmem : i ∈ Finset.range m.sublistCount := Finset.mem_range.2 hi
    have hle := Finset.single_le_sum (f := fun j => (L j).length) (fun _ _ => Nat.zero_le _) hmem
    rw [← h.count] at hle
    simp only [hL, List.length_cons] at hle
    omega
  have hcount : m.count - 1 + (L i).length = m.count + rest.length := by
    rw [hL, List.length_cons]
    omega
  have hnext : m.next packet = rest.head? := hlinked.forward.1.trans (Option.or_none ..)
  cases rest with
  | nil =>
    have hm' : m.popSublist i packet =
        { m with count := m.count - 1, sublists := Function.update m.sublists i ⟨none, none⟩ } := by
      simp only [PacketList.popSublist, hnext, List.head?_nil]
    rw [hm']
    exact h.replace hi rfl rfl .nil (fun _ hp => by cases hp) List.nodup_nil
      (fun j hj hji p hp => ⟨hout j hj hji p hp, rfl, rfl, rfl⟩) hcount
  | cons b rest =>
    have hm' : m.popSublist i packet =
        { m with
          count := m.count - 1
          previous := Function.update m.previous b none
          sublists := Function.update m.sublists i ⟨some b, (m.sublists i).tail⟩ } := by
      simp only [PacketList.popSublist, hnext, List.head?_cons]
    rw [hm']
    refine h.replace hi rfl ?_ ⟨hlinked.forward.2, ?_⟩
      (fun p hp => hindex p (List.mem_cons_of_mem _ hp)) hnodup.of_cons
      (fun j hj hji p hp => ⟨hout j hj hji p hp, rfl, ?_, rfl⟩) hcount
    · rw [htail]
      rfl
    · exact hlinked.backward.2.relink hnodup.of_cons none
    · have hpb : p ≠ b := by
        rintro rfl
        exact hout j hj hji p hp (List.mem_cons_self ..)
      exact Function.update_of_ne hpb ..

/-- The loop of `pop` takes the first packet of a sublist, or all those it looks at are empty. -/
theorem popFrom (h : m.Represents L) {index : ℕ} (hindex : index < m.sublistCount) (left : ℕ) :
    (∃ i packet rest, i < m.sublistCount ∧ L i = packet :: rest ∧
      m.popFrom left index = (some packet, m.popSublist i packet)) ∨
    m.popFrom left index = (none, m) ∧ ∀ k < left, L ((index + k) % m.sublistCount) = [] := by
  induction left generalizing index with
  | zero => exact .inr ⟨rfl, fun k hk => absurd hk (Nat.not_lt_zero k)⟩
  | succ left ih =>
    have hpos := Nat.zero_lt_of_lt hindex
    have hhead := h.ends_head hindex
    rw [PacketList.popFrom, hhead]
    cases hL : L index with
    | cons packet rest => exact .inl ⟨index, packet, rest, hindex, hL, rfl⟩
    | nil =>
      rcases ih (Nat.mod_lt (index + 1) hpos) with hsome | ⟨hnone, hempty⟩
      · exact .inl hsome
      · refine .inr ⟨hnone, fun k hk => ?_⟩
        cases k with
        | zero => rw [Nat.add_zero, Nat.mod_eq_of_lt hindex, hL]
        | succ k =>
          have hk' := hempty k (Nat.lt_of_succ_lt_succ hk)
          rwa [Nat.mod_add_mod, Nat.add_assoc, Nat.add_comm 1 k] at hk'

theorem pop (h : m.Represents L) (hpos : 0 < m.sublistCount) (environmentId : ℕ) :
    (∃ i packet rest, i < m.sublistCount ∧ L i = packet :: rest ∧
      m.pop environmentId = (some packet, m.popSublist i packet)) ∨
    m.pop environmentId = (none, m) ∧ ∀ i < m.sublistCount, L i = [] := by
  rcases h.popFrom (Nat.mod_lt environmentId hpos) m.sublistCount with hsome | ⟨hnone, hempty⟩
  · exact .inl hsome
  · refine .inr ⟨hnone, fun i hi => ?_⟩
    have hlt := Nat.mod_lt environmentId hpos
    by_cases hle : environmentId % m.sublistCount ≤ i
    · have hk := hempty (i - environmentId % m.sublistCount) (by omega)
      rwa [Nat.add_sub_cancel' hle, Nat.mod_eq_of_lt hi] at hk
    · have hk := hempty (i + m.sublistCount - environmentId % m.sublistCount) (by omega)
      rwa [Nat.add_sub_cancel' (by omega), Nat.add_mod_right, Nat.mod_eq_of_lt hi] at hk

/-! ### remove -/

/-- The links and the ends of a sublist after `remove`, which it has found from the
packet's own links. -/
theorem remove_eq (h : m.Represents L) (hi : i < m.sublistCount) {packet : ι} {l₁ l₂ : List ι}
    (hL : L i = l₁ ++ packet :: l₂) :
    m.remove packet =
      { m with
        next := match l₁.getLast? with
          | none => m.next
          | some previous => Function.update m.next previous l₂.head?
        previous := relinkHead m.previous l₁.getLast? l₂
        sublists := Function.update m.sublists i ⟨(l₁ ++ l₂).head?, (l₁ ++ l₂).getLast?⟩
        count := m.count - 1 } := by
  have hlinked := h.linked i hi
  have hends := h.ends i hi
  have hindex := h.index i hi packet (by simp [hL])
  rw [hL] at hlinked hends
  have hprev : m.previous packet = l₁.getLast? := by
    rw [hlinked.backward.prev_eq, Option.or_none]
  have hnext : m.next packet = l₂.head? := by
    rw [(ForwardLinked.append_iff.1 hlinked.forward).2.1, Option.or_none]
  rw [PacketList.remove, hprev, hnext, hindex]
  cases hl₁ : l₁.getLast? with
  | none =>
    obtain rfl := List.getLast?_eq_none_iff.1 hl₁
    cases l₂ with
    | nil => simp [relinkHead]
    | cons b rest => simp [relinkHead, hends]
  | some a =>
    have hne : l₁ ≠ [] := by
      rintro rfl
      cases hl₁
    obtain ⟨c, l₁, rfl⟩ := List.exists_cons_of_ne_nil hne
    cases l₂ with
    | nil => simp [relinkHead, hends, hl₁]
    | cons b rest =>
      have hsame : Function.update m.sublists i
          ⟨(c :: l₁ ++ b :: rest).head?, (c :: l₁ ++ b :: rest).getLast?⟩ = m.sublists := by
        refine Function.update_eq_self_iff.2 ?_
        rw [hends, List.getLast?_append_cons, List.getLast?_append_cons, List.getLast?_cons_cons]
        rfl
      rw [hsame]
      rfl

theorem remove (h : m.Represents L) (hi : i < m.sublistCount) {packet : ι} {l₁ l₂ : List ι}
    (hL : L i = l₁ ++ packet :: l₂) :
    (m.remove packet).Represents (Function.update L i (l₁ ++ l₂)) := by
  have hlinked := h.linked i hi
  have hnodup := h.nodup i hi
  rw [hL] at hlinked hnodup
  have hsub : ∀ p ∈ l₁ ++ l₂, p ∈ L i := by
    intro p hp
    rw [hL]
    rcases List.mem_append.1 hp with hp | hp
    · exact List.mem_append_left _ hp
    · exact List.mem_append_right _ (List.mem_cons_of_mem _ hp)
  have hout (j : ℕ) (hj : j < m.sublistCount) (hji : j ≠ i) (p : ι) (hp : p ∈ L j) : p ∉ L i :=
    h.disjoint j hj i hi hji hp
  have hnodup' : (l₁ ++ l₂).Nodup := (List.nodup_middle.1 hnodup).of_cons
  have hprev := hlinked.backward.prev_eq
  rw [Option.or_none] at hprev
  rw [h.remove_eq hi hL]
  refine h.replace hi rfl rfl ⟨?_, ?_⟩ (fun p hp => h.index i hi p (hsub p hp)) hnodup' ?_ ?_
  · obtain ⟨hfirst, hrest⟩ := ForwardLinked.append_iff.1 hlinked.forward
    cases hl₁ : l₁.getLast? with
    | none =>
      obtain rfl := List.getLast?_eq_none_iff.1 hl₁
      exact hrest.2
    | some a =>
      refine ForwardLinked.append_iff.2 ⟨?_, hrest.2.congr fun p hp => ?_⟩
      · rw [Option.or_none]
        exact hfirst.retarget hnodup'.of_append_left hl₁ l₂.head?
      · have hpa : p ≠ a := by
          rintro rfl
          exact (List.disjoint_of_nodup_append hnodup') (List.mem_of_getLast? hl₁) hp
        exact Function.update_of_ne hpa ..
  · rw [← hprev]
    exact hlinked.backward.unlink hnodup
  · intro j hj hji p hp
    have hp' := hout j hj hji p hp
    refine ⟨fun hmem => hp' (hsub p hmem), ?_, ?_, rfl⟩
    · cases hl₁ : l₁.getLast? with
      | none => rfl
      | some a =>
        have hpa : p ≠ a := by
          rintro rfl
          exact hp' (hsub p (List.mem_append_left _ (List.mem_of_getLast? hl₁)))
        exact Function.update_of_ne hpa ..
    · exact relinkHead_of_not_mem _ _ fun hmem => hp' (hsub p (List.mem_append_right _ hmem))
  · have hpos : 0 < m.count := by
      have hmem : i ∈ Finset.range m.sublistCount := Finset.mem_range.2 hi
      have hle := Finset.single_le_sum (f := fun j => (L j).length) (fun _ _ => Nat.zero_le _) hmem
      rw [← h.count] at hle
      simp only [hL, List.length_append, List.length_cons] at hle
      omega
    rw [hL]
    simp only [List.length_append, List.length_cons]
    omega

/-! ### pushList -/

theorem setSublistIndexes_apply {l : List ι} {after : Option ι}
    (hl : ForwardLinked m.next after l) (sublistIndex : ι → ℕ) (p : ι) :
    m.setSublistIndexes l.length (l.head?.or after) sublistIndex p =
      if p ∈ l then 0 else sublistIndex p := by
  induction l generalizing sublistIndex with
  | nil => rfl
  | cons a rest ih =>
    change m.setSublistIndexes rest.length (m.next a) (Function.update sublistIndex a 0) p = _
    rw [hl.1, ih hl.2]
    by_cases hp : p ∈ rest
    · rw [if_pos hp, if_pos (List.mem_cons_of_mem _ hp)]
    · by_cases hpa : p = a
      · rw [if_neg hp, if_pos (by simp [hpa]), hpa, Function.update_self]
      · rw [if_neg hp, if_neg (by simp [hp, hpa]), Function.update_of_ne hpa]

theorem pushList (h : m.Represents L) (hpos : 0 < m.sublistCount) {l : List ι} {head tail : ι}
    (hl : DoublyLinked m.next m.previous l) (hhead : l.head? = some head)
    (htail : l.getLast? = some tail) (hnodup : l.Nodup)
    (hnew : ∀ j < m.sublistCount, ∀ p ∈ L j, p ∉ l) :
    (m.pushList head tail l.length).Represents (Function.update L 0 (l ++ L 0)) := by
  have hnodup' : (l ++ L 0).Nodup :=
    List.nodup_append'.2 ⟨hnodup, h.nodup 0 hpos, fun p hp hp' => hnew 0 hpos p hp' hp⟩
  have hhead₀ := h.ends_head hpos
  have htail₀ := h.ends_tail hpos
  obtain ⟨next', hnext'⟩ : ∃ f, f = Function.update m.next tail (L 0).head? := ⟨_, rfl⟩
  obtain ⟨previous', hprevious'⟩ : ∃ f, f = relinkHead m.previous (some tail) (L 0) := ⟨_, rfl⟩
  -- the loop follows the links of the pushed list, whose last one has changed before
  obtain ⟨sublistIndex', hindex'⟩ : ∃ f, f = fun p => if p ∈ l then 0 else m.sublistIndex p :=
    ⟨_, rfl⟩
  have hforward : ForwardLinked next' (L 0).head? l := hnext' ▸ hl.forward.retarget hnodup htail _
  have hm' : m.pushList head tail l.length =
      { m with
        next := next', previous := previous', sublistIndex := sublistIndex'
        sublists := Function.update m.sublists 0 ⟨(l ++ L 0).head?, (l ++ L 0).getLast?⟩
        count := m.count + l.length } := by
    have hwalk (m' : PacketList ι) (hm' : m'.next = next') :
        m'.setSublistIndexes l.length (some head) m.sublistIndex = sublistIndex' := by
      funext p
      have hwalk := setSublistIndexes_apply (hm' ▸ hforward) m.sublistIndex p
      rw [hhead] at hwalk
      rw [hindex']
      exact hwalk
    have hfirst : m.linkFirstList head tail =
        { m with
          previous := previous'
          sublists := Function.update m.sublists 0 ⟨(l ++ L 0).head?, (l ++ L 0).getLast?⟩ } := by
      rw [PacketList.linkFirstList, hhead₀, htail₀, hprevious']
      cases L 0 with
      | nil =>
        rw [List.append_nil, hhead, htail]
        rfl
      | cons b rest =>
        rw [List.head?_append, hhead, List.getLast?_append_cons]
        rfl
    have hnext : Function.update m.next tail (m.sublists 0).head = next' := by
      rw [hhead₀, hnext']
    simp only [PacketList.pushList, hfirst, hnext]
    rw [hwalk _ rfl]
  rw [hm']
  refine h.replace hpos rfl rfl ⟨?_, ?_⟩ (fun p hp => ?_) hnodup' ?_ ?_
  · refine ForwardLinked.append_iff.2 ⟨by rwa [Option.or_none], ?_⟩
    refine (h.linked 0 hpos).forward.congr fun p hp => ?_
    have hpt : p ≠ tail := by
      rintro rfl
      exact hnew 0 hpos p hp (List.mem_of_getLast? htail)
    rw [hnext']
    exact Function.update_of_ne hpt ..
  · refine BackLinked.append_iff.2 ⟨hl.backward.congr fun p hp => ?_, ?_⟩
    · rw [hprevious']
      exact relinkHead_of_not_mem _ _ fun hmem => hnew 0 hpos p hmem hp
    · rw [htail, hprevious']
      exact (h.linked 0 hpos).backward.relink (h.nodup 0 hpos) (some tail)
  · rw [hindex']
    by_cases hpl : p ∈ l
    · exact if_pos hpl
    · exact (if_neg hpl).trans (h.index 0 hpos p ((List.mem_append.1 hp).resolve_left hpl))
  · intro j hj hj0 p hp
    have hp0 : p ∉ L 0 := h.disjoint j hj 0 hpos hj0 hp
    have hpl := hnew j hj p hp
    have hpt : p ≠ tail := by
      rintro rfl
      exact hpl (List.mem_of_getLast? htail)
    refine ⟨fun hmem => (List.mem_append.1 hmem).elim hpl hp0, ?_, ?_, ?_⟩
    · rw [hnext']
      exact Function.update_of_ne hpt ..
    · rw [hprevious']
      exact relinkHead_of_not_mem _ _ hp0
    · rw [hindex']
      exact if_neg hpl
  · rw [List.length_append]
    exact Nat.add_assoc ..

end Represents

end OMR.GC.PacketList
