import OMR.GC.PacketListInvariant

/-!
# Runs of a packet list

`popList` and `getHead` make one list of all sublists, but only with forward links. A
run of a packet list keeps it as it should be exactly when none of them is called while
two sublists have packets.
-/

namespace OMR.GC.PacketList

open OMR.Lib

variable {ι : Type*}

/-- The packets of the first `k` sublists, one sublist after the other. -/
def firstPackets (L : ℕ → List ι) (k : ℕ) : List ι := (List.range k).flatMap L

theorem firstPackets_succ (L : ℕ → List ι) (k : ℕ) :
    firstPackets L (k + 1) = firstPackets L k ++ L k := by
  simp [firstPackets, List.range_succ]

theorem mem_firstPackets {L : ℕ → List ι} {k : ℕ} {p : ι} :
    p ∈ firstPackets L k ↔ ∃ i < k, p ∈ L i := by
  simp [firstPackets]

theorem length_firstPackets (L : ℕ → List ι) (k : ℕ) :
    (firstPackets L k).length = ∑ i ∈ Finset.range k, (L i).length := by
  induction k with
  | zero => rfl
  | succ k ih => rw [firstPackets_succ, List.length_append, ih, Finset.sum_range_succ]

/-- At most one sublist has packets. -/
def AtMostOne (n : ℕ) (L : ℕ → List ι) : Prop :=
  ∀ i < n, ∀ j < n, L i ≠ [] → L j ≠ [] → i = j

theorem nodup_firstPackets {n : ℕ} {L : ℕ → List ι} (hnodup : ∀ i < n, (L i).Nodup)
    (hdisjoint : ∀ i < n, ∀ j < n, i ≠ j → (L i).Disjoint (L j)) {k : ℕ} (hk : k ≤ n) :
    (firstPackets L k).Nodup := by
  induction k with
  | zero => exact List.nodup_nil
  | succ k ih =>
    rw [firstPackets_succ]
    refine List.nodup_append'.2 ⟨ih (Nat.le_of_succ_le hk), hnodup k hk, fun p hp hp' => ?_⟩
    obtain ⟨i, hi, hpi⟩ := mem_firstPackets.1 hp
    exact hdisjoint i (hi.trans hk) k hk hi.ne hpi hp'

/-- Back links within sublists are those of all the packets only when there is nothing to
put together. -/
theorem backLinked_firstPackets_iff {n : ℕ} {L : ℕ → List ι} {previous : ι → Option ι}
    (hback : ∀ i < n, BackLinked previous none (L i)) :
    BackLinked previous none (firstPackets L n) ↔ AtMostOne n L := by
  constructor
  · intro h
    have hprefix : ∀ k ≤ n, BackLinked previous none (firstPackets L k) := by
      intro k hk
      induction hk using Nat.decreasingInduction with
      | self => exact h
      | of_succ k _ ih =>
        rw [firstPackets_succ] at ih
        exact (BackLinked.append_iff.1 ih).1
    have hlt : ∀ i j, i < j → j < n → L i ≠ [] → L j ≠ [] → False := by
      intro i j hij hj hLi hLj
      have hj' := hprefix (j + 1) hj
      rw [firstPackets_succ] at hj'
      have hseam := (BackLinked.append_iff.1 hj').2
      obtain ⟨a, rest, ha⟩ := List.exists_cons_of_ne_nil hLj
      obtain ⟨b, rest', hb⟩ := List.exists_cons_of_ne_nil hLi
      have hown := hback j hj
      rw [ha] at hseam hown
      have hlast := hseam.1.symm.trans hown.1
      rw [Option.or_none, List.getLast?_eq_none_iff] at hlast
      have hmem : b ∈ firstPackets L j := mem_firstPackets.2 ⟨i, hij, by simp [hb]⟩
      rw [hlast] at hmem
      cases hmem
    intro i hi j hj hLi hLj
    rcases lt_trichotomy i j with hij | hij | hij
    · exact (hlt i j hij hj hLi hLj).elim
    · exact hij
    · exact (hlt j i hij hi hLj hLi).elim
  · intro hone
    have hprefix : ∀ k ≤ n, BackLinked previous none (firstPackets L k) := by
      intro k hk
      induction k with
      | zero => trivial
      | succ k ih =>
        rw [firstPackets_succ]
        by_cases hL : L k = []
        · rw [hL, List.append_nil]
          exact ih (Nat.le_of_succ_le hk)
        · have hnil : firstPackets L k = [] := by
            refine List.eq_nil_iff_forall_not_mem.2 fun p hp => ?_
            obtain ⟨i, hi, hpi⟩ := mem_firstPackets.1 hp
            exact hi.ne (hone i (hi.trans hk) k hk (List.ne_nil_of_mem hpi) hL)
          rw [hnil]
          exact hback k hk
    exact hprefix n le_rfl

section PopList

variable [DecidableEq ι] {m : PacketList ι} {L : ℕ → List ι}

/-- What the loop of `popList` has done after `k` sublists. -/
structure Collected (m : PacketList ι) (L : ℕ → List ι) (k : ℕ)
    (s : PacketList ι × PoppedList ι) : Prop where
  next : ForwardLinked s.1.next none (firstPackets L k)
  frame : ∀ p, p ∉ firstPackets L k → s.1.next p = m.next p
  previous : s.1.previous = m.previous
  sublistIndex : s.1.sublistIndex = m.sublistIndex
  sublistCount : s.1.sublistCount = m.sublistCount
  count : s.1.count = m.count
  taken : ∀ i < k, s.1.sublists i = ⟨none, none⟩
  left : ∀ i, k ≤ i → s.1.sublists i = m.sublists i
  didPop : s.2.didPop = !(firstPackets L k).isEmpty
  head : s.2.head = (firstPackets L k).head?
  tail : s.2.tail = (firstPackets L k).getLast?

/-- A round over a sublist with packets puts them behind those collected before. -/
theorem Collected.step_cons {k : ℕ} {s : PacketList ι × PoppedList ι} (hs : Collected m L k s)
    (hnodup : (firstPackets L k).Nodup) {a : ι} {rest : List ι}
    (hends : s.1.sublists k = ⟨some a, (a :: rest).getLast?⟩) :
    ∃ next', ForwardLinked next' (some a) (firstPackets L k) ∧
      (∀ p, p ∉ firstPackets L k → next' p = s.1.next p) ∧
      popListStep s k =
        ({ s.1 with next := next', sublists := Function.update s.1.sublists k ⟨none, none⟩ },
          ⟨true, (firstPackets L k).head?.or (some a), (a :: rest).getLast?, s.2.count⟩) := by
  obtain ⟨m', didPop, head, tail, count⟩ := s
  obtain rfl := hs.head
  obtain rfl := hs.tail
  change m'.sublists k = _ at hends
  simp only [popListStep, hends]
  have hnext := hs.next
  rcases List.eq_nil_or_concat (firstPackets L k) with hF | ⟨init, last, hF⟩
  · rw [hF]
    exact ⟨m'.next, trivial, fun _ _ => rfl, rfl⟩
  · have hlast : (firstPackets L k).getLast? = some last := by
      rw [hF]
      simp
    obtain ⟨first, hfirst⟩ : ∃ first, (firstPackets L k).head? = some first := by
      rw [← Option.isSome_iff_exists, List.isSome_head?]
      simp [hF]
    refine ⟨Function.update m'.next last (some a), hnext.retarget hnodup hlast (some a),
      fun p hp => ?_, ?_⟩
    · have hpl : p ≠ last := by
        rintro rfl
        exact hp (List.mem_of_getLast? hlast)
      exact Function.update_of_ne hpl ..
    · rw [hfirst, hlast]
      rfl

theorem Collected.step (h : m.Represents L) {k : ℕ} (hk : k < m.sublistCount)
    {s : PacketList ι × PoppedList ι} (hs : Collected m L k s) :
    Collected m L (k + 1) (popListStep s k) := by
  have hends : s.1.sublists k = ⟨(L k).head?, (L k).getLast?⟩ := (hs.left k le_rfl).trans (h.ends k hk)
  cases hL : L k with
  | nil =>
    have hsame : popListStep s k = s := by
      rw [hL] at hends
      simp only [popListStep, hends, List.head?_nil]
    have hfirst : firstPackets L (k + 1) = firstPackets L k := by
      rw [firstPackets_succ, hL, List.append_nil]
    rw [hsame]
    exact
      { next := hfirst ▸ hs.next
        frame := hfirst ▸ hs.frame
        previous := hs.previous
        sublistIndex := hs.sublistIndex
        sublistCount := hs.sublistCount
        count := hs.count
        taken := fun i hi => by
          rcases Nat.lt_succ_iff_lt_or_eq.1 hi with hi | rfl
          · exact hs.taken i hi
          · rw [hends, hL]
            rfl
        left := fun i hi => hs.left i (Nat.le_of_succ_le hi)
        didPop := hfirst ▸ hs.didPop
        head := hfirst ▸ hs.head
        tail := hfirst ▸ hs.tail }
  | cons a rest =>
    have hnodup := nodup_firstPackets h.nodup h.disjoint hk.le
    have hout : ∀ p ∈ L k, p ∉ firstPackets L k := by
      intro p hp hmem
      obtain ⟨i, hi, hpi⟩ := mem_firstPackets.1 hmem
      exact h.disjoint i (hi.trans hk) k hk hi.ne hpi hp
    rw [hL] at hends
    obtain ⟨next', hforward, hframe, hstep⟩ := hs.step_cons hnodup hends
    have hfirst : firstPackets L (k + 1) = firstPackets L k ++ a :: rest := by
      rw [firstPackets_succ, hL]
    rw [hstep]
    exact
      { next := by
          rw [hfirst, ← hL]
          refine ForwardLinked.append_iff.2 ⟨by rwa [hL], ?_⟩
          exact (h.linked k hk).forward.congr fun p hp =>
            (hframe p (hout p hp)).trans (hs.frame p (hout p hp))
        frame := fun p hp => by
          rw [hfirst, List.mem_append, not_or] at hp
          exact (hframe p hp.1).trans (hs.frame p hp.1)
        previous := hs.previous
        sublistIndex := hs.sublistIndex
        sublistCount := hs.sublistCount
        count := hs.count
        taken := fun i hi => by
          rcases Nat.lt_succ_iff_lt_or_eq.1 hi with hi | rfl
          · exact (Function.update_of_ne hi.ne ..).trans (hs.taken i hi)
          · exact Function.update_self ..
        left := fun i hi =>
          (Function.update_of_ne (Nat.lt_of_succ_le hi).ne' ..).trans
            (hs.left i (Nat.le_of_succ_le hi))
        didPop := by
          rw [hfirst]
          simp
        head := by
          rw [hfirst, List.head?_append]
          rfl
        tail := by
          rw [hfirst, List.getLast?_append_cons] }

theorem collected (h : m.Represents L) {k : ℕ} (hk : k ≤ m.sublistCount) :
    Collected m L k ((List.range k).foldl popListStep (m, ⟨false, none, none, 0⟩)) := by
  induction k with
  | zero =>
    exact
      { next := trivial
        frame := fun _ _ => rfl
        previous := rfl
        sublistIndex := rfl
        sublistCount := rfl
        count := rfl
        taken := fun i hi => absurd hi (Nat.not_lt_zero i)
        left := fun _ _ => rfl
        didPop := rfl
        head := rfl
        tail := rfl }
  | succ k ih =>
    rw [List.range_succ, List.foldl_append]
    exact (ih (Nat.le_of_succ_le hk)).step h hk

/-- What `popList` returns and leaves behind. -/
theorem popList_spec (h : m.Represents L) :
    let l := firstPackets L m.sublistCount
    (m.popList.1 = ⟨!l.isEmpty, l.head?, l.getLast?, l.length⟩) ∧
      ForwardLinked m.popList.2.next none l ∧ m.popList.2.previous = m.previous ∧
      m.popList.2.sublistCount = m.sublistCount ∧
      m.popList.2.Represents fun _ => [] := by
  intro l
  have hc := collected h le_rfl
  have hresult : m.popList =
      ({ ((List.range m.sublistCount).foldl popListStep (m, ⟨false, none, none, 0⟩)).2 with
          count := ((List.range m.sublistCount).foldl popListStep
            (m, ⟨false, none, none, 0⟩)).1.count },
        { ((List.range m.sublistCount).foldl popListStep (m, ⟨false, none, none, 0⟩)).1 with
          count := 0 }) := rfl
  generalize (List.range m.sublistCount).foldl popListStep (m, ⟨false, none, none, 0⟩) = s
    at hc hresult
  rw [hresult]
  have hcount : s.1.count = l.length := by
    rw [hc.count, h.count, length_firstPackets]
  refine ⟨?_, hc.next, hc.previous, hc.sublistCount, ?_⟩
  · change (⟨s.2.didPop, s.2.head, s.2.tail, s.1.count⟩ : PoppedList ι) = _
    rw [hc.didPop, hc.head, hc.tail, hcount]
  · exact
      { linked := fun _ _ => .nil
        ends := fun i hi => hc.taken i (hi.trans_eq hc.sublistCount)
        index := fun _ _ _ hp => by cases hp
        nodup := fun _ _ => List.nodup_nil
        disjoint := fun _ _ _ _ _ => List.disjoint_nil_left _
        count := by simp }

/-- The list that `popList` returns has the back links of the sublists. -/
theorem popList_linked_iff (h : m.Represents L) {l : List ι}
    (hforward : ForwardLinked m.popList.2.next none l)
    (hhead : l.head? = (firstPackets L m.sublistCount).head?) :
    BackLinked m.previous none l ↔ AtMostOne m.sublistCount L := by
  rw [hforward.eq_of_head (popList_spec h).2.1 hhead]
  exact backLinked_firstPackets_iff fun i hi => (h.linked i hi).backward

/-- `getHead` moves all packets to the first sublist, if there are any. -/
theorem getHead_eq (h : m.Represents L) :
    let l := firstPackets L m.sublistCount
    (l = [] ∧ m.getHead = (none, m.popList.2)) ∨
      ∃ head tail, l.head? = some head ∧ l.getLast? = some tail ∧
        m.getHead = (((m.popList.2.pushList head tail l.length).sublists 0).head,
          m.popList.2.pushList head tail l.length) := by
  intro l
  have hpop : m.popList = (⟨!l.isEmpty, l.head?, l.getLast?, l.length⟩, m.popList.2) :=
    Prod.ext (popList_spec h).1 rfl
  rcases List.eq_nil_or_concat l with hl | ⟨init, tail, hl⟩
  · refine .inl ⟨hl, ?_⟩
    rw [PacketList.getHead, hpop, hl]
    rfl
  · obtain ⟨head, rest, hcons⟩ := List.exists_cons_of_ne_nil (show l ≠ [] by simp [hl])
    have hhead : l.head? = some head := by
      rw [hcons]
      rfl
    have htail : l.getLast? = some tail := by
      rw [hl]
      simp
    have hnonempty : (!l.isEmpty) = true := by
      rw [hcons]
      rfl
    refine .inr ⟨head, tail, hhead, htail, ?_⟩
    rw [PacketList.getHead, hpop, hhead, htail, hnonempty]

/-- On an empty packet list `pushList` writes no back link. -/
theorem pushList_empty (h : m.Represents fun _ => []) (hpos : 0 < m.sublistCount) (head tail : ι)
    (count : ℕ) :
    (m.pushList head tail count).previous = m.previous ∧
      (m.pushList head tail count).next = Function.update m.next tail none ∧
      (m.pushList head tail count).sublistCount = m.sublistCount ∧
      (m.pushList head tail count).sublists 0 = ⟨some head, some tail⟩ := by
  have hhead : (m.sublists 0).head = none := h.ends_head hpos
  simp [PacketList.pushList, PacketList.linkFirstList, hhead]

end PopList

section Runs

/-- The calls on a packet list, and what the owner of a packet that is not on it may do. -/
inductive Op (ι : Type*)
  | push (environmentId : ℕ) (packet : ι)
  /-- `pushList` of the list that starts with `head`. -/
  | pushList (head : ι) (rest : List ι)
  | pop (environmentId : ℕ)
  | popList
  | getHead
  | remove (packet : ι)
  | relink (packet : ι) (next previous : Option ι) (sublistIndex : ℕ)

/-- What a call returns. -/
inductive Result (ι : Type*)
  | nothing
  | packet (packet : Option ι)
  | list (popped : PoppedList ι)

def exec [DecidableEq ι] (m : PacketList ι) : Op ι → Result ι × PacketList ι
  | .push environmentId packet => (.nothing, m.push environmentId packet)
  | .pushList head rest =>
    (.nothing, m.pushList head ((head :: rest).getLast (by simp)) (head :: rest).length)
  | .pop environmentId => (.packet (m.pop environmentId).1, (m.pop environmentId).2)
  | .popList => (.list m.popList.1, m.popList.2)
  | .getHead => (.packet m.getHead.1, m.getHead.2)
  | .remove packet => (.nothing, m.remove packet)
  | .relink packet next previous sublistIndex =>
    (.nothing, { m with
      next := Function.update m.next packet next
      previous := Function.update m.previous packet previous
      sublistIndex := Function.update m.sublistIndex packet sublistIndex })

/-- The packets that have been pushed and neither popped nor removed since. -/
def contentsAfter (contents : Set ι) : Op ι → Result ι → Set ι
  | .push _ packet, _ => insert packet contents
  | .pushList head rest, _ => contents ∪ {p | p ∈ head :: rest}
  | .pop _, .packet (some packet) => contents \ {packet}
  | .pop _, _ => contents
  | .popList, _ => ∅
  | .getHead, _ => contents
  | .remove packet, _ => contents \ {packet}
  | .relink _ _ _ _, _ => contents

/-- Packets that are pushed are not on the list and those that are removed are, and a list
that is pushed is well formed. -/
def Permitted (m : PacketList ι) (contents : Set ι) : Op ι → Prop
  | .push _ packet => packet ∉ contents
  | .pushList head rest => DoublyLinked m.next m.previous (head :: rest) ∧ (head :: rest).Nodup ∧
      ∀ p ∈ head :: rest, p ∉ contents
  | .remove packet => packet ∈ contents
  | .relink packet _ _ _ => packet ∉ contents
  | _ => True

/-- The result of a call is right for a list with `contents` before it; a popped list is doubly
linked in the links after the call. -/
def Result.Ok (m' : PacketList ι) (contents : Set ι) : Result ι → Prop
  | .nothing => True
  | .packet (some p) => p ∈ contents
  | .packet none => contents = ∅
  | .list popped => ∃ l : List ι, DoublyLinked m'.next m'.previous l ∧ l.Nodup ∧
      (∀ p, p ∈ l ↔ p ∈ contents) ∧ popped = ⟨!l.isEmpty, l.head?, l.getLast?, l.length⟩

/-- Every sublist is doubly linked, each packet of `contents` is on one of them once, and
nothing else is. -/
def WellFormed (m : PacketList ι) (contents : Set ι) : Prop :=
  ∃ L, m.Represents L ∧ m.Contains L contents

/-- No two sublists have packets. -/
def OneSublist (m : PacketList ι) : Prop :=
  ∀ i < m.sublistCount, ∀ j < m.sublistCount,
    (m.sublists i).head ≠ none → (m.sublists j).head ≠ none → i = j

/-- The condition on a call. -/
def MeetsStep (m : PacketList ι) : Op ι → Prop
  | .popList => m.OneSublist
  | .getHead => m.OneSublist
  | _ => True

theorem wellFormed_initialized (n : ℕ) (next previous : ι → Option ι) (sublistIndex : ι → ℕ) :
    (initialized next previous sublistIndex n).WellFormed ∅ :=
  ⟨_, Represents.initialized next previous sublistIndex n, fun p => by simp⟩

theorem oneSublist_iff {m : PacketList ι} {L : ℕ → List ι} (h : m.Represents L) :
    m.OneSublist ↔ AtMostOne m.sublistCount L := by
  have hhead (i : ℕ) (hi : i < m.sublistCount) : (m.sublists i).head ≠ none ↔ L i ≠ [] := by
    rw [h.ends_head hi, ne_eq, List.head?_eq_none_iff]
  constructor
  · exact fun hm i hi j hj hLi hLj => hm i hi j hj ((hhead i hi).2 hLi) ((hhead j hj).2 hLj)
  · exact fun hm i hi j hj hLi hLj => hm i hi j hj ((hhead i hi).1 hLi) ((hhead j hj).1 hLj)

variable [DecidableEq ι]

/-- A call does what it should. -/
def Correct (m : PacketList ι) (contents : Set ι) (op : Op ι) : Prop :=
  (m.exec op).1.Ok (m.exec op).2 contents ∧
    (m.exec op).2.WellFormed (contentsAfter contents op (m.exec op).1)

section Calls

variable {m : PacketList ι} {L : ℕ → List ι} {contents : Set ι} {packet : ι}

omit [DecidableEq ι] in
theorem Contains.split (hc : m.Contains L contents) {i : ℕ} (hi : i < m.sublistCount) (p : ι) :
    p ∈ contents ↔ p ∈ L i ∨ ∃ j < m.sublistCount, j ≠ i ∧ p ∈ L j := by
  rw [hc p]
  constructor
  · rintro ⟨j, hj, hp⟩
    by_cases hji : j = i
    · exact .inl (hji ▸ hp)
    · exact .inr ⟨j, hj, hji, hp⟩
  · rintro (hp | ⟨j, hj, -, hp⟩)
    · exact ⟨i, hi, hp⟩
    · exact ⟨j, hj, hp⟩

omit [DecidableEq ι] in
theorem Contains.not_mem (hc : m.Contains L contents) (hp : packet ∉ contents) (j : ℕ)
    (hj : j < m.sublistCount) : packet ∉ L j :=
  fun hmem => hp ((hc packet).2 ⟨j, hj, hmem⟩)

theorem push_sublistCount (m : PacketList ι) (environmentId : ℕ) (packet : ι) :
    (m.push environmentId packet).sublistCount = m.sublistCount := by
  simp only [push]
  split <;> rfl

theorem popSublist_sublistCount (m : PacketList ι) (i : ℕ) (packet : ι) :
    (m.popSublist i packet).sublistCount = m.sublistCount := by
  simp only [popSublist]
  split <;> rfl

theorem pushList_sublistCount (m : PacketList ι) (head tail : ι) (count : ℕ) :
    (m.pushList head tail count).sublistCount = m.sublistCount := by
  simp only [pushList, linkFirstList]
  split <;> rfl

theorem correct_push (hpos : 0 < m.sublistCount) (hL : m.Represents L)
    (hc : m.Contains L contents) (environmentId : ℕ) (hop : packet ∉ contents) :
    m.Correct contents (.push environmentId packet) := by
  have hi : m.getSublistIndex environmentId < m.sublistCount := Nat.mod_lt _ hpos
  refine ⟨trivial, _, hL.push hpos environmentId (hc.not_mem hop), ?_⟩
  refine Represents.contains_replace hi (push_sublistCount ..) fun p => ?_
  change p = packet ∨ p ∈ contents ↔ _
  rw [hc.split hi, List.mem_cons, or_assoc]

theorem correct_pushList (hpos : 0 < m.sublistCount) (hL : m.Represents L)
    (hc : m.Contains L contents) {head : ι} {rest : List ι}
    (hl : DoublyLinked m.next m.previous (head :: rest)) (hnodup : (head :: rest).Nodup)
    (hnew : ∀ p ∈ head :: rest, p ∉ contents) : m.Correct contents (.pushList head rest) := by
  have hrep := hL.pushList hpos hl rfl (List.getLast?_eq_some_getLast (by simp)) hnodup
    fun j hj p hp hmem => hc.not_mem (hnew p hmem) j hj hp
  refine ⟨trivial, _, hrep, ?_⟩
  refine Represents.contains_replace hpos (pushList_sublistCount ..) fun p => ?_
  change p ∈ contents ∨ p ∈ head :: rest ↔ _
  rw [hc.split hpos, List.mem_append, or_right_comm, or_comm (a := p ∈ L 0)]

theorem correct_pop (hpos : 0 < m.sublistCount) (hL : m.Represents L)
    (hc : m.Contains L contents) (environmentId : ℕ) : m.Correct contents (.pop environmentId) := by
  rcases hL.pop hpos environmentId with ⟨i, packet, rest, hi, hLi, hpop⟩ | ⟨hpop, hempty⟩
  · have hexec : m.exec (.pop environmentId) =
        (.packet (some packet), m.popSublist i packet) := by
      rw [exec, hpop]
    rw [Correct, hexec]
    have hmem : packet ∈ L i := hLi ▸ List.mem_cons_self ..
    refine ⟨(hc packet).2 ⟨i, hi, hmem⟩, _, hL.popSublist hi hLi, ?_⟩
    refine Represents.contains_replace hi (popSublist_sublistCount ..) fun p => ?_
    change p ∈ contents ∧ p ≠ packet ↔ _
    have hnodup := hL.nodup i hi
    rw [hLi, List.nodup_cons] at hnodup
    rw [hc.split hi, hLi, List.mem_cons]
    constructor
    · rintro ⟨(rfl | hp) | hp, hne⟩
      · exact absurd rfl hne
      · exact .inl hp
      · exact .inr hp
    · rintro (hp | ⟨j, hj, hji, hp⟩)
      · exact ⟨.inl (.inr hp), fun hpp => hnodup.1 (hpp ▸ hp)⟩
      · refine ⟨.inr ⟨j, hj, hji, hp⟩, ?_⟩
        rintro rfl
        exact hL.disjoint j hj i hi hji hp hmem
  · have hexec : m.exec (.pop environmentId) = (.packet none, m) := by
      rw [exec, hpop]
    rw [Correct, hexec]
    refine ⟨Set.eq_empty_iff_forall_notMem.2 fun p hp => ?_, L, hL, hc⟩
    obtain ⟨i, hi, hpi⟩ := (hc p).1 hp
    rw [hempty i hi] at hpi
    cases hpi

theorem correct_remove (hL : m.Represents L) (hc : m.Contains L contents)
    (hop : packet ∈ contents) : m.Correct contents (.remove packet) := by
  obtain ⟨i, hi, hmem⟩ := (hc packet).1 hop
  obtain ⟨l₁, l₂, hLi⟩ := List.append_of_mem hmem
  have hcount : (m.remove packet).sublistCount = m.sublistCount := by
    rw [hL.remove_eq hi hLi]
  refine ⟨trivial, _, hL.remove hi hLi, Represents.contains_replace hi hcount fun p => ?_⟩
  change p ∈ contents ∧ p ≠ packet ↔ _
  have hnodup := hL.nodup i hi
  rw [hLi, List.nodup_middle, List.nodup_cons] at hnodup
  have hsplit : p ∈ L i ↔ p = packet ∨ p ∈ l₁ ++ l₂ := by
    rw [hLi, List.mem_append, List.mem_cons, List.mem_append]
    exact or_left_comm
  rw [hc.split hi, hsplit]
  constructor
  · rintro ⟨(rfl | hp) | hp, hne⟩
    · exact absurd rfl hne
    · exact .inl hp
    · exact .inr hp
  · rintro (hp | ⟨j, hj, hji, hp⟩)
    · exact ⟨.inl (.inr hp), fun hpp => hnodup.1 (hpp ▸ hp)⟩
    · refine ⟨.inr ⟨j, hj, hji, hp⟩, ?_⟩
      rintro rfl
      exact hL.disjoint j hj i hi hji hp hmem

theorem correct_relink (hL : m.Represents L) (hc : m.Contains L contents) (hop : packet ∉ contents)
    (next previous : Option ι) (sublistIndex : ℕ) :
    m.Correct contents (.relink packet next previous sublistIndex) := by
  have hne {p : ι} {i : ℕ} (hi : i < m.sublistCount) (hp : p ∈ L i) : p ≠ packet := by
    rintro rfl
    exact hc.not_mem hop i hi hp
  refine ⟨trivial, L, ?_, hc⟩
  exact
    { linked := fun i hi => (hL.linked i hi).congr
        (fun p hp => Function.update_of_ne (hne hi hp) ..)
        fun p hp => Function.update_of_ne (hne hi hp) ..
      ends := hL.ends
      index := fun i hi p hp => (Function.update_of_ne (hne hi hp) ..).trans (hL.index i hi p hp)
      nodup := hL.nodup
      disjoint := hL.disjoint
      count := hL.count }

theorem correct_popList_iff (hL : m.Represents L) (hc : m.Contains L contents) :
    m.Correct contents .popList ↔ m.OneSublist := by
  obtain ⟨hresult, hforward, hprevious, hcount, hempty⟩ := popList_spec hL
  rw [oneSublist_iff hL]
  constructor
  · rintro ⟨⟨l, hl, -, -, heq⟩, -⟩
    have hhead : l.head? = (firstPackets L m.sublistCount).head? := by
      have hheads := congrArg PoppedList.head (heq.symm.trans hresult)
      exact hheads
    refine (popList_linked_iff hL hl.forward hhead).1 ?_
    have hback := hl.backward
    change BackLinked m.popList.2.previous none l at hback
    rwa [hprevious] at hback
  · intro hone
    have hback := (popList_linked_iff hL hforward rfl).2 hone
    refine ⟨⟨_, ⟨hforward, by rwa [← hprevious] at hback⟩,
      nodup_firstPackets hL.nodup hL.disjoint le_rfl, fun p => ?_, hresult⟩, _, hempty, fun p => ?_⟩
    · rw [mem_firstPackets, hc p]
    · simp [contentsAfter]

theorem correct_getHead_iff (hpos : 0 < m.sublistCount) (hL : m.Represents L)
    (hc : m.Contains L contents) : m.Correct contents .getHead ↔ m.OneSublist := by
  obtain ⟨-, hforward, hprevious, hcount, hempty⟩ := popList_spec hL
  have hmem (p : ι) : p ∈ contents ↔ p ∈ firstPackets L m.sublistCount := by
    rw [mem_firstPackets, hc p]
  have hnodup := nodup_firstPackets hL.nodup hL.disjoint (le_refl m.sublistCount)
  have hpos' : 0 < m.popList.2.sublistCount := hpos.trans_eq hcount.symm
  rcases getHead_eq hL with ⟨hnil, hget⟩ | ⟨head, tail, hhead, htail, hget⟩
  · have hexec : m.exec .getHead = (.packet none, m.popList.2) := by
      rw [exec, hget]
    have hnone : contents = ∅ := Set.eq_empty_iff_forall_notMem.2 fun p hp => by
      rw [hmem, hnil] at hp
      cases hp
    refine iff_of_true ?_ ((oneSublist_iff hL).2 fun i hi j hj hLi hLj => ?_)
    · rw [Correct, hexec]
      refine ⟨hnone, _, hempty, fun p => ?_⟩
      simp [contentsAfter, hnone]
    · obtain ⟨p, hp⟩ := List.exists_mem_of_ne_nil _ hLi
      have hp' := mem_firstPackets.2 ⟨i, hi, hp⟩
      rw [hnil] at hp'
      cases hp'
  · obtain ⟨hprevious', hnext', hcount', hsublist⟩ := pushList_empty hempty hpos' head tail
      (firstPackets L m.sublistCount).length
    have hexec : m.exec .getHead = (.packet (some head),
        m.popList.2.pushList head tail (firstPackets L m.sublistCount).length) := by
      rw [exec, hget, hsublist]
    rw [Correct, hexec, oneSublist_iff hL]
    constructor
    · rintro ⟨-, L', hL', -⟩
      have hlt := hpos'.trans_eq hcount'.symm
      have hhead' : (L' 0).head? = some head := by
        rw [← hL'.ends_head hlt, hsublist]
      have hforward' := hforward.retarget hnodup htail none
      rw [← hnext'] at hforward'
      have hsame := (hL'.linked 0 hlt).forward.eq_of_head hforward' (hhead'.trans hhead.symm)
      have hback := (hL'.linked 0 hlt).backward
      rw [hsame, hprevious', hprevious] at hback
      exact (popList_linked_iff hL hforward rfl).1 hback
    · intro hone
      have hback := (popList_linked_iff hL hforward rfl).2 hone
      have hrep := hempty.pushList hpos' ⟨hforward, by rwa [← hprevious] at hback⟩ hhead htail hnodup
        fun _ _ _ hp => by cases hp
      refine ⟨(hmem head).2 (List.mem_of_head? hhead), _, hrep, ?_⟩
      refine Represents.contains_replace hpos' hcount' fun p => ?_
      change p ∈ contents ↔ _
      rw [hmem, List.append_nil]
      simp

end Calls

/-- What a call does when the packet list is as it should be. -/
theorem correct_iff {m : PacketList ι} {contents : Set ι} (hpos : 0 < m.sublistCount)
    (h : m.WellFormed contents) {op : Op ι} (hop : m.Permitted contents op) :
    m.Correct contents op ↔ m.MeetsStep op := by
  obtain ⟨L, hL, hc⟩ := h
  cases op with
  | push environmentId packet => exact iff_of_true (correct_push hpos hL hc environmentId hop) trivial
  | pushList head rest => exact iff_of_true (correct_pushList hpos hL hc hop.1 hop.2.1 hop.2.2) trivial
  | pop environmentId => exact iff_of_true (correct_pop hpos hL hc environmentId) trivial
  | popList => exact correct_popList_iff hL hc
  | getHead => exact correct_getHead_iff hpos hL hc
  | remove packet => exact iff_of_true (correct_remove hL hc hop) trivial
  | relink packet next previous sublistIndex =>
    exact iff_of_true (correct_relink hL hc hop next previous sublistIndex) trivial

theorem exec_sublistCount {m : PacketList ι} {contents : Set ι} (hpos : 0 < m.sublistCount)
    (h : m.WellFormed contents) (op : Op ι) : (m.exec op).2.sublistCount = m.sublistCount := by
  obtain ⟨L, hL, -⟩ := h
  cases op with
  | push environmentId packet => exact push_sublistCount ..
  | pushList head rest => exact pushList_sublistCount ..
  | pop environmentId =>
    rcases hL.pop hpos environmentId with ⟨i, packet, rest, -, -, hpop⟩ | ⟨hpop, -⟩
    · rw [exec, hpop]
      exact popSublist_sublistCount ..
    · rw [exec, hpop]
  | popList => exact (popList_spec hL).2.2.2.1
  | getHead =>
    rcases getHead_eq hL with ⟨-, hget⟩ | ⟨head, tail, -, -, hget⟩
    · rw [exec, hget]
      exact (popList_spec hL).2.2.2.1
    · rw [exec, hget]
      exact (pushList_sublistCount ..).trans (popList_spec hL).2.2.2.1
  | remove packet =>
    change (m.remove packet).sublistCount = m.sublistCount
    simp only [remove]
    split <;> split <;> rfl
  | relink packet next previous sublistIndex => rfl

/-- Every call of a run is permitted when it is made. -/
def PermittedRun : PacketList ι → Set ι → List (Op ι) → Prop
  | _, _, [] => True
  | m, contents, op :: ops => m.Permitted contents op ∧
      PermittedRun (m.exec op).2 (contentsAfter contents op (m.exec op).1) ops

/-- Every call of a run does what it should. -/
def CorrectRun : PacketList ι → Set ι → List (Op ι) → Prop
  | _, _, [] => True
  | m, contents, op :: ops => m.Correct contents op ∧
      CorrectRun (m.exec op).2 (contentsAfter contents op (m.exec op).1) ops

/-- Whenever a run makes one list of all sublists, at most one of them has packets. -/
def MeetsRun : PacketList ι → List (Op ι) → Prop
  | _, [] => True
  | m, op :: ops => m.MeetsStep op ∧ MeetsRun (m.exec op).2 ops

theorem correctRun_iff {m : PacketList ι} {contents : Set ι} (hpos : 0 < m.sublistCount)
    (h : m.WellFormed contents) {ops : List (Op ι)} (hops : m.PermittedRun contents ops) :
    m.CorrectRun contents ops ↔ m.MeetsRun ops := by
  induction ops generalizing m contents with
  | nil => exact Iff.rfl
  | cons op ops ih =>
    obtain ⟨hop, hops⟩ := hops
    have hstep := correct_iff hpos h hop
    have hpos' : 0 < (m.exec op).2.sublistCount := hpos.trans_eq (exec_sublistCount hpos h op).symm
    constructor
    · rintro ⟨hcorrect, hrun⟩
      exact ⟨hstep.1 hcorrect, (ih hpos' hcorrect.2 hops).1 hrun⟩
    · rintro ⟨hmeets, hrun⟩
      have hcorrect := hstep.2 hmeets
      exact ⟨hcorrect, (ih hpos' hcorrect.2 hops).2 hrun⟩

/-- A packet list stays as it should be through a run exactly when the run never makes one
list of several sublists with packets. -/
theorem run_correct_iff (n : ℕ) (hn : 0 < n) (next previous : ι → Option ι)
    (sublistIndex : ι → ℕ) (ops : List (Op ι))
    (hops : (initialized next previous sublistIndex n).PermittedRun ∅ ops) :
    (initialized next previous sublistIndex n).CorrectRun ∅ ops ↔
      (initialized next previous sublistIndex n).MeetsRun ops :=
  correctRun_iff hn (wellFormed_initialized n next previous sublistIndex) hops

/-- Two packets are pushed to one sublist and popped together. -/
theorem run_correct_one_sublist :
    (initialized (fun _ : ℕ => none) (fun _ => none) (fun _ => 0) 2).CorrectRun ∅
      [.push 0 10, .push 2 11, .popList] := by
  refine (run_correct_iff 2 (by decide) _ _ _ _ ?_).2 ?_
  · exact ⟨by simp [Permitted], by simp [Permitted, contentsAfter], trivial, trivial⟩
  · refine ⟨trivial, trivial, fun i hi j hj hLi hLj => ?_, trivial⟩
    change i < 2 at hi
    change j < 2 at hj
    interval_cases i <;> interval_cases j
    · rfl
    · exact absurd rfl hLj
    · exact absurd rfl hLi
    · rfl

/-- A packet is pushed to each of two sublists, and `popList` returns them without a link
from the second one back to the first. -/
theorem popList_loses_back_link :
    (initialized (fun _ : ℕ => none) (fun _ => none) (fun _ => 0) 2).PermittedRun ∅
      [.push 0 10, .push 1 11, .popList] ∧
    ¬ (initialized (fun _ : ℕ => none) (fun _ => none) (fun _ => 0) 2).CorrectRun ∅
      [.push 0 10, .push 1 11, .popList] := by
  have hops : (initialized (fun _ : ℕ => none) (fun _ => none) (fun _ => 0) 2).PermittedRun ∅
      [.push 0 10, .push 1 11, .popList] :=
    ⟨by simp [Permitted], by simp [Permitted, contentsAfter], trivial, trivial⟩
  refine ⟨hops, fun hcorrect => ?_⟩
  obtain ⟨-, -, hone, -⟩ := (correctRun_iff (by decide) (wellFormed_initialized ..) hops).1 hcorrect
  exact absurd (hone 0 (by decide) 1 (by decide) (by decide) (by decide)) (by decide)

end Runs

end OMR.GC.PacketList
