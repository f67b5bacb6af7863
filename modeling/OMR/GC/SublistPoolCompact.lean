import OMR.GC.SublistPoolContents

/-!
# Compaction of a sublist pool

`compact` takes the puddles off the list one by one. At each round they are on the new
list, in hand (the current puddle and the merge candidate), still on the old list, or
elsewhere.
-/

namespace OMR.GC.SublistPool

open OMR.Lib

variable {P E : Type*}

/-- The puddles that are out of reach keep their link and their contents, and the pool its
bounds and its previous list. -/
structure Keeps (untouched : P → Prop) (pool pool' : SublistPool P E) : Prop where
  next : ∀ p, untouched p → pool'.next p = pool.next p
  puddle : ∀ p, untouched p → pool'.puddle p = pool.puddle p
  growSize : pool'.growSize = pool.growSize
  maxSize : pool'.maxSize = pool.maxSize
  previousList : pool'.previousList = pool.previousList
  currentSize : pool'.currentSize ≤ pool.currentSize

namespace Keeps

variable {untouched untouched' : P → Prop} {pool pool' pool'' : SublistPool P E}

theorem refl (untouched : P → Prop) (pool : SublistPool P E) : Keeps untouched pool pool :=
  ⟨fun _ _ => rfl, fun _ _ => rfl, rfl, rfl, rfl, le_rfl⟩

theorem trans (h : Keeps untouched pool pool') (h' : Keeps untouched pool' pool'') :
    Keeps untouched pool pool'' where
  next p hp := (h'.next p hp).trans (h.next p hp)
  puddle p hp := (h'.puddle p hp).trans (h.puddle p hp)
  growSize := h'.growSize.trans h.growSize
  maxSize := h'.maxSize.trans h.maxSize
  previousList := h'.previousList.trans h.previousList
  currentSize := h'.currentSize.trans h.currentSize

theorem mono (h : Keeps untouched pool pool') (hsub : ∀ p, untouched' p → untouched p) :
    Keeps untouched' pool pool' where
  next p hp := h.next p (hsub p hp)
  puddle p hp := h.puddle p (hsub p hp)
  growSize := h.growSize
  maxSize := h.maxSize
  previousList := h.previousList
  currentSize := h.currentSize

end Keeps

/-- The puddles in the middle of a compaction. -/
structure Chained (pool : SublistPool P E) (lastPuddle : Option P) (done inHand rest : List P)
    (others : P → Prop) : Prop where
  doneLinked : ForwardLinked pool.next none done
  head : pool.list = done.head?
  last : lastPuddle = done.getLast?
  restLinked : ForwardLinked pool.next none rest
  nodup : (done ++ inHand ++ rest).Nodup
  notOthers : ∀ p ∈ done ++ inHand ++ rest, ¬ others p
  allocated : ∀ p, p ∈ pool.allocated ↔ p ∈ done ++ inHand ++ rest ∨ others p

namespace Chained

variable {pool : SublistPool P E} {lastPuddle : Option P} {done inHand rest : List P}
  {others : P → Prop} {p : P}

/-- The next puddle is taken off the old list. -/
theorem take (h : Chained pool lastPuddle done inHand (p :: rest) others) :
    Chained pool lastPuddle done (p :: inHand) rest others := by
  have hperm : (done ++ (p :: inHand) ++ rest).Perm (done ++ inHand ++ p :: rest) := by
    rw [List.append_assoc, List.append_assoc]
    exact List.Perm.append_left _ List.perm_middle.symm
  refine ⟨h.doneLinked, h.head, h.last, h.restLinked.2, hperm.nodup_iff.2 h.nodup,
    fun q hq => h.notOthers q (hperm.mem_iff.1 hq), fun q => ?_⟩
  rw [h.allocated, hperm.mem_iff]

theorem inHand_perm {inHand' : List P} (h : Chained pool lastPuddle done inHand rest others)
    (hperm : inHand.Perm inHand') : Chained pool lastPuddle done inHand' rest others := by
  have hall : (done ++ inHand ++ rest).Perm (done ++ inHand' ++ rest) :=
    (hperm.append_left done).append_right rest
  refine ⟨h.doneLinked, h.head, h.last, h.restLinked, hall.nodup_iff.1 h.nodup,
    fun q hq => h.notOthers q (hall.mem_iff.2 hq), fun q => ?_⟩
  rw [h.allocated, hall.mem_iff]

variable [DecidableEq P]

/-- A puddle in hand goes to the front of the new list. -/
theorem addFull (destinationPuddle : Option P)
    (h : Chained pool lastPuddle done (p :: inHand) rest others) :
    Chained ((⟨pool, destinationPuddle, lastPuddle⟩ : Compaction P E).addFull p).pool
      ((⟨pool, destinationPuddle, lastPuddle⟩ : Compaction P E).addFull p).lastPuddle
      (p :: done) inHand rest others := by
  have hperm : (p :: done ++ inHand ++ rest).Perm (done ++ (p :: inHand) ++ rest) := by
    rw [List.cons_append, List.cons_append, List.append_assoc, List.append_assoc,
      List.cons_append]
    exact List.perm_middle.symm
  have hnodup := hperm.nodup_iff.2 h.nodup
  have hp : p ∉ done ++ inHand ++ rest := (List.nodup_cons.1 hnodup).1
  have hkept : ∀ q ∈ done ++ inHand ++ rest,
      Function.update pool.next p pool.list q = pool.next q := fun q hq =>
    Function.update_of_ne (ne_of_mem_of_not_mem hq hp) ..
  refine ⟨⟨?_, h.doneLinked.congr fun q hq => hkept q (by simp [hq])⟩, rfl, ?_,
    h.restLinked.congr fun q hq => hkept q (by simp [hq]), hnodup,
    fun q hq => h.notOthers q (hperm.mem_iff.1 hq), fun q => ?_⟩
  · rw [Option.or_none, ← h.head]
    exact Function.update_self ..
  · change (if pool.list = none then some p else lastPuddle) = _
    rw [h.head, h.last]
    cases done with
    | nil => rfl
    | cons a done => rfl
  · exact (h.allocated q).trans (by rw [hperm.mem_iff])

/-- A puddle in hand is killed. -/
theorem kill (h : Chained pool lastPuddle done (p :: inHand) rest others) (currentSize : ℕ) :
    Chained (SublistPool.kill { pool with currentSize := currentSize } p) lastPuddle done inHand rest
      others := by
  have hperm : (done ++ (p :: inHand) ++ rest).Perm (p :: (done ++ inHand ++ rest)) := by
    rw [List.append_assoc, List.append_assoc, List.cons_append]
    exact List.perm_middle
  have hnodup := hperm.nodup_iff.1 h.nodup
  refine ⟨h.doneLinked, h.head, h.last, h.restLinked, (List.nodup_cons.1 hnodup).2,
    fun q hq => h.notOthers q (hperm.mem_iff.2 (List.mem_cons_of_mem _ hq)), fun q => ?_⟩
  have hother : ¬ others p := h.notOthers p (hperm.mem_iff.2 (List.mem_cons_self ..))
  change q ∈ pool.allocated.erase p ↔ _
  rw [Finset.mem_erase, h.allocated, hperm.mem_iff, List.mem_cons]
  constructor
  · rintro ⟨hne, hq⟩
    exact hq.imp_left fun hq => hq.resolve_left hne
  · intro hq
    refine ⟨?_, hq.imp_left .inr⟩
    rintro rfl
    exact hq.elim (List.nodup_cons.1 hnodup).1 hother

/-- The links do not change when puddles are merged. -/
theorem merge (h : Chained pool lastPuddle done inHand rest others) (destination source : P) :
    Chained (pool.merge destination source) lastPuddle done inHand rest others :=
  ⟨h.doneLinked, h.head, h.last, h.restLinked, h.nodup, h.notOthers, h.allocated⟩

end Chained

variable [DecidableEq P]

theorem keeps_merge (pool : SublistPool P E) (destination source : P) :
    Keeps (· ∉ [destination, source]) pool (pool.merge destination source) := by
  refine ⟨fun _ _ => rfl, fun p hp => ?_, rfl, rfl, rfl, le_rfl⟩
  obtain ⟨hne, hne'⟩ : p ≠ destination ∧ p ≠ source := by simpa using hp
  exact (Function.update_of_ne hne' ..).trans (Function.update_of_ne hne ..)

theorem merge_puddle_destination (pool : SublistPool P E) {destination source : P}
    (hne : destination ≠ source) : (pool.merge destination source).puddle destination =
      (pool.puddle destination).mergeFrom (pool.puddle source) :=
  (Function.update_of_ne hne ..).trans (Function.update_self ..)

theorem merge_puddle_source (pool : SublistPool P E) (destination source : P) :
    (pool.merge destination source).puddle source = (pool.puddle source).dropLast
      ((pool.puddle destination).copyCount (pool.puddle source)) :=
  Function.update_self ..

/-- The size of a puddle that is empty. -/
def emptySize (pool : SublistPool P E) (p : P) : ℕ :=
  if (pool.puddle p).isEmpty then (pool.puddle p).size else 0

/-- `compact` before one of its rounds. -/
structure Compacting (s : Compaction P E) (done rest : List P) (others : P → Prop)
    (stored : Multiset E) (lost : ℕ) : Prop where
  chained : Chained s.pool s.lastPuddle done s.destinationPuddle.toList rest others
  accounts : s.pool.Accounts stored lost

namespace Compaction

variable {s : Compaction P E} {done rest : List P} {others : P → Prop} {stored : Multiset E}
  {lost : ℕ}

theorem keeps_addFull (s : Compaction P E) (p : P) : Keeps (· ∉ [p]) s.pool (s.addFull p).pool :=
  ⟨fun _ hq => Function.update_of_ne (List.ne_of_not_mem_cons hq) .., fun _ _ => rfl, rfl, rfl,
    rfl, le_rfl⟩

/-- Of two partly full puddles, one is filled or the other emptied. -/
theorem mergeInto_compacting {destination source : P}
    (hchained : Chained s.pool s.lastPuddle done [destination, source] rest others)
    (haccounts : s.pool.Accounts stored lost) :
    (∃ done', Compacting (s.mergeInto destination source) done' rest others stored lost) ∧
      Keeps (· ∉ [destination, source]) s.pool (s.mergeInto destination source).pool := by
  have hnodup : [destination, source].Nodup := hchained.nodup.of_append_left.of_append_right
  have hne : destination ≠ source := by simpa using hnodup
  have hd := (hchained.allocated destination).2 (by simp)
  have hs := (hchained.allocated source).2 (by simp)
  have hchained := hchained.merge destination source
  have hmerged := haccounts.merge hd hs hne
  have hkeeps := keeps_merge s.pool destination source
  have hadd : Keeps (· ∉ [destination, source]) (s.pool.merge destination source)
      (addFull { s with pool := s.pool.merge destination source } destination).pool :=
    (keeps_addFull { s with pool := s.pool.merge destination source } destination).mono (by simp +contextual)
  have hkill : ∀ (pool : SublistPool P E) (size : ℕ), Keeps (· ∉ [destination, source]) pool
      (SublistPool.kill { pool with currentSize := pool.currentSize - size } source) :=
    fun pool size => ⟨fun _ _ => rfl, fun _ _ => rfl, rfl, rfl, rfl, Nat.sub_le ..⟩
  have hfull := hchained.addFull s.destinationPuddle
  simp only [mergeInto]
  split
  · split
    · rename_i hempty
      have hkilled := hmerged.killSource hs hempty
      exact ⟨⟨destination :: done, hfull.kill _, ⟨hkilled.valid, hkilled.stored, hkilled.size⟩⟩,
        (hkeeps.trans hadd).trans (hkill _ _)⟩
    · exact ⟨⟨destination :: done, hfull, ⟨hmerged.valid, hmerged.stored, hmerged.size⟩⟩,
        hkeeps.trans hadd⟩
  · rename_i hnotFull
    have hempty : ((s.pool.merge destination source).puddle source).isEmpty = true := by
      rw [merge_puddle_source]
      refine (haccounts.valid destination hd).dropLast_isEmpty (haccounts.valid source hs) ?_
      rw [← merge_puddle_destination _ hne]
      exact Bool.eq_false_iff.2 hnotFull
    refine ⟨⟨done, ?_, ?_⟩, hkeeps.trans (hkill _ _)⟩
    · exact (hchained.inHand_perm (List.Perm.swap ..)).kill _
    · exact hmerged.killSource hs hempty

/-- A round of the loop: the size of an empty puddle is lost. -/
theorem step_compacting {p : P} (h : Compacting s done (p :: rest) others stored lost) :
    (∃ done', Compacting (s.step p) done' rest others stored (lost + emptySize s.pool p)) ∧
      Keeps (· ∉ p :: s.destinationPuddle.toList) s.pool (s.step p).pool := by
  obtain ⟨hchained, haccounts⟩ := h
  have htake := hchained.take
  have hp := (hchained.allocated p).2 (by simp)
  unfold step
  split
  · rename_i hempty
    rw [emptySize, if_pos hempty]
    exact ⟨⟨done, htake.kill _, haccounts.kill hp hempty⟩, fun _ _ => rfl, fun _ _ => rfl, rfl, rfl,
      rfl, le_rfl⟩
  rename_i hnotEmpty
  rw [emptySize, if_neg hnotEmpty, add_zero]
  split
  · exact ⟨⟨p :: done, htake.addFull _, ⟨haccounts.valid, haccounts.stored, haccounts.size⟩⟩,
      (keeps_addFull s p).mono (by simp +contextual)⟩
  cases hd : s.destinationPuddle with
  | none =>
    rw [hd] at htake
    exact ⟨⟨done, htake, haccounts⟩, .refl _ _⟩
  | some destination =>
    rw [hd] at htake
    dsimp only
    split
    · obtain ⟨hmerged, hkeeps⟩ :=
        mergeInto_compacting (htake.inHand_perm (List.Perm.swap ..)) haccounts
      exact ⟨hmerged, hkeeps.mono (by simp [or_comm])⟩
    · obtain ⟨hmerged, hkeeps⟩ := mergeInto_compacting htake haccounts
      exact ⟨hmerged, hkeeps.mono (by simp)⟩

/-- The loop comes to the end of the list, and what it has lost is the empty puddles. -/
theorem loop_compacting (h : Compacting s done rest others stored lost) {rounds : ℕ}
    (hrounds : rest.length ≤ rounds) :
    ∃ s' done', loop rounds s rest.head? = some s' ∧
      Compacting s' done' [] others stored (lost + (rest.map (emptySize s.pool)).sum) ∧
      Keeps others s.pool s'.pool := by
  induction rest generalizing s done lost rounds with
  | nil =>
    refine ⟨s, done, ?_, h, .refl _ _⟩
    cases rounds <;> rfl
  | cons p rest ih =>
    cases rounds with
    | zero => cases hrounds
    | succ rounds =>
      obtain ⟨⟨done', hstep⟩, hkeeps⟩ := step_compacting h
      obtain ⟨s', done'', hloop, hdone, hkeeps'⟩ := ih hstep (Nat.le_of_succ_le_succ hrounds)
      have hnext : s.pool.next p = rest.head? := by
        rw [h.chained.restLinked.1, Option.or_none]
      have hnotRest : ∀ q ∈ rest, q ∉ p :: s.destinationPuddle.toList := fun q hq hin =>
        List.disjoint_of_nodup_append h.chained.take.nodup (List.mem_append_right _ hin) hq
      have hnotOthers : ∀ q, others q → q ∉ p :: s.destinationPuddle.toList := fun q hq hin =>
        h.chained.take.notOthers q (List.mem_append_left _ (List.mem_append_right _ hin)) hq
      -- the rounds so far have not touched the puddles that are still to come
      have hrest : rest.map (emptySize (s.step p).pool) = rest.map (emptySize s.pool) :=
        List.map_congr_left fun q hq => by
          rw [emptySize, emptySize, hkeeps.puddle q (hnotRest q hq)]
      refine ⟨s', done'', ?_, ?_, (hkeeps.mono hnotOthers).trans hkeeps'⟩
      · rw [List.head?_cons, loop, hnext, hloop]
      · rwa [List.map_cons, List.sum_cons, ← add_assoc, ← hrest]

end Compaction

/-- The puddles of a pool: those on the list, which ends at the allocation puddle, and others. -/
structure Listed (pool : SublistPool P E) (list : List P) (others : P → Prop) : Prop where
  linked : ForwardLinked pool.next none list
  head : pool.list = list.head?
  last : pool.allocPuddle = list.getLast?
  nodup : list.Nodup
  notOthers : ∀ p ∈ list, ¬ others p
  allocated : ∀ p, p ∈ pool.allocated ↔ p ∈ list ∨ others p

namespace Compaction

variable {s : Compaction P E} {done : List P} {others : P → Prop}

/-- The merge candidate that is left becomes the allocation puddle. -/
theorem finish_listed (h : Chained s.pool s.lastPuddle done s.destinationPuddle.toList [] others) :
    ∃ list, Listed s.finish list others ∧ Keeps others s.pool s.finish := by
  obtain ⟨pool, destinationPuddle, lastPuddle⟩ := s
  cases destinationPuddle with
  | none =>
    have hallocated : ∀ q, q ∈ pool.allocated ↔ q ∈ done ∨ others q := by simpa using h.allocated
    refine ⟨done, ⟨h.doneLinked, h.head, h.last, ?_, ?_, hallocated⟩, fun _ _ => rfl, fun _ _ => rfl,
      rfl, rfl, rfl, le_rfl⟩
    · simpa using h.nodup
    · simpa using h.notOthers
  | some destination =>
    have hnodup : (done ++ [destination]).Nodup := by simpa using h.nodup
    have hothers : ∀ q ∈ done ++ [destination], ¬ others q := by simpa using h.notOthers
    have hallocated : ∀ q, q ∈ pool.allocated ↔ q ∈ done ++ [destination] ∨ others q := by
      simpa using h.allocated
    have hnot : ∀ q ∈ done, q ≠ destination := fun q hq heq =>
      List.disjoint_of_nodup_append hnodup hq (by simp [heq])
    have hout : ∀ q, others q → q ≠ destination := fun q hq heq =>
      hothers q (by simp [heq]) hq
    refine ⟨done ++ [destination], ?_⟩
    obtain rfl | ⟨front, last, rfl⟩ := done.eq_nil_or_concat'
    · have hlast : lastPuddle = none := h.last
      subst hlast
      refine ⟨⟨⟨Function.update_self .., trivial⟩, rfl, rfl, hnodup, hothers, hallocated⟩,
        fun q hq => ?_, fun _ _ => rfl, rfl, rfl, rfl, le_rfl⟩
      exact Function.update_of_ne (hout q hq) ..
    · have hlast : lastPuddle = some last := h.last.trans List.getLast?_concat
      subst hlast
      have hlinked := h.doneLinked.retarget (hnodup.of_append_left) List.getLast?_concat
        (some destination)
      refine ⟨⟨ForwardLinked.append_iff.2 ⟨?_, Function.update_self .., trivial⟩, ?_,
        List.getLast?_concat.symm, hnodup, hothers, hallocated⟩, fun q hq => ?_,
        fun _ _ => rfl, rfl, rfl, rfl, le_rfl⟩
      · exact hlinked.congr fun q hq => Function.update_of_ne (hnot q hq) ..
      · rw [List.head?_append_of_ne_nil _ (by simp)]
        exact h.head
      · have hne : q ≠ last := fun heq => hothers q (by simp [heq]) hq
        exact (Function.update_of_ne (hout q hq) ..).trans (Function.update_of_ne hne ..)

theorem finish_accounts {stored : Multiset E} {lost : ℕ} (h : s.pool.Accounts stored lost) :
    s.finish.Accounts stored lost := by
  obtain ⟨pool, destinationPuddle, lastPuddle⟩ := s
  cases destinationPuddle <;> cases lastPuddle <;> exact ⟨h.valid, h.stored, h.size⟩

end Compaction

variable {pool : SublistPool P E} {list : List P} {others : P → Prop} {stored : Multiset E}

/-- Compaction returns, keeps the entries, and loses the sizes of the empty puddles. -/
theorem Listed.compact (h : Listed pool list others) (haccounts : pool.Accounts stored 0) :
    ∃ pool' list', pool.compact = some pool' ∧ Listed pool' list' others ∧
      pool'.Accounts stored (list.map (emptySize pool)).sum ∧ Keeps others pool pool' := by
  have hstart : Compacting ⟨{ pool with list := none }, none, none⟩ [] list others stored 0 := by
    refine ⟨⟨trivial, rfl, rfl, h.linked, ?_, ?_, ?_⟩, haccounts.valid, haccounts.stored,
      haccounts.size⟩
    · simpa using h.nodup
    · simpa using h.notOthers
    · simpa using h.allocated
  have hrounds : list.length ≤ pool.allocated.card := by
    rw [← List.toFinset_card_of_nodup h.nodup]
    refine Finset.card_le_card fun p hp => ?_
    exact (h.allocated p).2 (.inl (List.mem_toFinset.1 hp))
  obtain ⟨s, done, hloop, hdone, hkeeps⟩ := Compaction.loop_compacting hstart hrounds
  obtain ⟨list', hlisted, hkeeps'⟩ := Compaction.finish_listed hdone.chained
  have haccounts' := hdone.accounts
  rw [zero_add] at haccounts'
  refine ⟨s.finish, list', ?_, hlisted, Compaction.finish_accounts haccounts', ?_⟩
  · rw [SublistPool.compact, h.head, hloop, Option.map_some]
  · have hstart : Keeps others pool { pool with list := none } :=
      ⟨fun _ _ => rfl, fun _ _ => rfl, rfl, rfl, rfl, le_rfl⟩
    exact (hstart.trans hkeeps).trans hkeeps'

end OMR.GC.SublistPool
