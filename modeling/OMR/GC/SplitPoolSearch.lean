import Mathlib.Tactic
import OMR.GC.SplitPoolInvariant

/-!
# The search of the split pool

What the two passes of an allocation find: an entry that is large enough, with the
right link to the entry before it, or no entry because there is none. The first pass
comes to every list before it gives up.
-/

namespace OMR.GC.SplitPool

open OMR.Lib

variable {p : SplitPool} {i size : ℕ}

/-- The variables of a walk that has passed the entries `before` and has `rest` to come. The
reserved entry is the only one that gives no candidate for a hint, so that at most one
step of the walk gives none. -/
structure WalkOk (p : SplitPool) (i : ℕ) (before rest : List Extent) (w : Walk) : Prop where
  previous : w.previousFreeEntry = Link.last before
  small : ∀ e ∈ before, p.IsReserved i e ∨ e.size ≤ w.candidateHintSize
  candidate : ∀ a, w.candidateHintEntry = some a → ∃ e ∈ before, e.base = a ∧ ¬p.IsReserved i e
  missing : w.candidateHintEntry = none →
    w.walkCount = 0 ∨ (w.walkCount = 1 ∧ ∀ e ∈ rest, ¬p.IsReserved i e)

/-- One list has one reserved entry at most. -/
theorem Sound.isReserved_eq (h : p.Sound) (hi : i < p.heapFreeListCount) {e x : Extent}
    (he : p.IsReserved i e) (hx : p.IsReserved i x) : x = e := by
  obtain ⟨xs, ys, hn⟩ := he
  exact ((hn.isReserved_iff (h.ordered i hi)).1 hx).2

theorem Sound.ne_of_split (h : p.Sound) (hi : i < p.heapFreeListCount) {xs ys : List Extent}
    {e : Extent} (hlist : p.entries i = xs ++ e :: ys) : ∀ x, x ∈ xs ∨ x ∈ ys → x ≠ e := by
  have hord := hlist ▸ h.ordered i hi
  have hpos := hord.size_pos e (by simp)
  obtain ⟨hlo, hhi⟩ := hord.around
  rintro x (hx | hx) rfl
  · have := hlo x hx
    simp only [Extent.top] at this
    omega
  · have := hhi x hx
    simp only [Extent.top] at this
    omega

/-- The walk passes an entry, which is a candidate for a hint unless it is reserved. -/
theorem WalkOk.pass (h : p.Sound) (hi : i < p.heapFreeListCount) {before rest : List Extent}
    {e : Extent} {w : Walk} (hlist : p.entries i = before ++ e :: rest)
    (hw : WalkOk p i before (e :: rest) w) :
    WalkOk p i (before ++ [e]) rest { w with
      largestFreeEntry := max w.largestFreeEntry e.size
      previousFreeEntry := .entry e.base
      candidateHintEntry :=
        if p.isPreviousReservedFreeEntry w.previousFreeEntry i then w.candidateHintEntry
        else some e.base
      candidateHintSize :=
        if p.isPreviousReservedFreeEntry w.previousFreeEntry i then w.candidateHintSize
        else max w.candidateHintSize e.size
      walkCount := w.walkCount + 1 } := by
  have htest := h.isPrevious_iff hi hlist
  rw [← hw.previous] at htest
  refine ⟨by simp, fun x hx => ?_, fun a ha => ?_, fun hnone => ?_⟩
  · obtain hx | hx := List.mem_append.1 hx
    · refine (hw.small x hx).imp_right fun hle => ?_
      dsimp only
      split
      · exact hle
      · exact hle.trans (le_max_left _ _)
    · obtain rfl := List.mem_singleton.1 hx
      by_cases hres : p.IsReserved i x
      · exact Or.inl hres
      · right
        dsimp only
        rw [if_neg (fun ht => hres (htest.1 ht))]
        exact le_max_right _ _
  · dsimp only at ha
    split at ha
    · obtain ⟨x, hx, hxa⟩ := hw.candidate a ha
      exact ⟨x, List.mem_append_left _ hx, hxa⟩
    · rename_i ht
      cases ha
      exact ⟨e, by simp, rfl, fun hres => ht (htest.2 hres)⟩
  · dsimp only at hnone
    split at hnone
    · rename_i ht
      have hres := htest.1 ht
      obtain hzero | ⟨-, hno⟩ := hw.missing hnone
      · refine Or.inr ⟨by simp [hzero], fun x hx hxres => ?_⟩
        exact h.ne_of_split hi hlist x (Or.inr hx) (h.isReserved_eq hi hres hxres)
      · exact absurd hres (hno e (by simp))
    · cases hnone

/-- The loop of `internalAllocateFromList` from any place of the list. -/
theorem walkList_spec (h : p.Sound) (hi : i < p.heapFreeListCount) (size : ℕ)
    {rest : List Extent} :
    ∀ {before : List Extent} {w : Walk}, p.entries i = before ++ rest → WalkOk p i before rest w →
      ∃ walked rest' w', p.walkList size i rest w = (w', rest') ∧ rest = walked ++ rest' ∧
        WalkOk p i (before ++ walked) rest' w' ∧
        (∀ e ∈ walked, p.IsReserved i e ∨ e.size < size) ∧
        ∀ e ∈ rest'.head?, size ≤ e.size ∧ ¬p.IsReserved i e := by
  induction rest with
  | nil =>
    intro before w _ hw
    exact ⟨[], [], w, rfl, rfl, by simpa using hw, by simp, by simp⟩
  | cons e rest ih =>
    intro before w hlist hw
    have htest := h.isPrevious_iff hi hlist
    rw [← hw.previous] at htest
    unfold walkList
    dsimp only
    split
    · rename_i hfits
      refine ⟨[], e :: rest, _, rfl, rfl, ?_, by simp, ?_⟩
      · rw [List.append_nil]
        exact ⟨hw.previous, hw.small, hw.candidate, hw.missing⟩
      · intro x hx
        cases hx
        exact ⟨hfits.1, fun hres => by simp [htest.2 hres] at hfits⟩
    · rename_i hpass
      have hsmall : p.IsReserved i e ∨ e.size < size := by
        by_cases hres : p.IsReserved i e
        · exact Or.inl hres
        · have hfalse : p.isPreviousReservedFreeEntry w.previousFreeEntry i = false := by
            rwa [← Bool.not_eq_true, htest]
          exact Or.inr (not_le.1 fun hle => hpass ⟨hle, hfalse⟩)
      have hlist' : p.entries i = (before ++ [e]) ++ rest := by
        rw [hlist, List.append_assoc, List.singleton_append]
      obtain ⟨walked, rest', w', hwalk, hrest, hw', hwalked, hfound⟩ :=
        ih hlist' (hw.pass h hi hlist)
      refine ⟨e :: walked, rest', w', hwalk, by rw [hrest]; rfl, ?_, ?_, hfound⟩
      · rwa [List.append_assoc, List.singleton_append] at hw'
      · intro x hx
        obtain rfl | hx := List.mem_cons.1 hx
        · exact hsmall
        · exact hwalked x hx

/-- The first step of a walk that begins at a hint, where the link to the entry before is not
known. The test may take the entry for the reserved one if that is the head of the list. -/
theorem WalkOk.first (h : p.Sound) (hi : i < p.heapFreeListCount) {before rest : List Extent}
    {e : Extent} {hintSize : ℕ} (largest : ℕ) (hlist : p.entries i = before ++ e :: rest)
    (hfree : ¬p.IsReserved i e)
    (hsmall : ∀ x ∈ before ++ [e], p.IsReserved i x ∨ x.size ≤ hintSize) :
    WalkOk p i (before ++ [e]) rest {
      largestFreeEntry := max largest e.size
      previousFreeEntry := .entry e.base
      candidateHintEntry :=
        if p.isPreviousReservedFreeEntry .null i then none else some e.base
      candidateHintSize :=
        if p.isPreviousReservedFreeEntry .null i then hintSize else max hintSize e.size
      walkCount := 1 } := by
  refine ⟨by simp, fun x hx => ?_, fun a ha => ?_, fun hnone => ?_⟩
  · refine (hsmall x hx).imp_right fun hle => ?_
    dsimp only
    split
    · exact hle
    · exact hle.trans (le_max_left _ _)
  · dsimp only at ha
    split at ha
    · cases ha
    · cases ha
      exact ⟨e, by simp, rfl, hfree⟩
  · dsimp only at hnone
    split at hnone
    · rename_i ht
      refine Or.inr ⟨rfl, fun x hx hxres => ?_⟩
      -- the reserved entry is the head, so the hint is behind it
      cases before with
      | nil => exact hfree ((h.isPrevious_iff hi hlist).1 ht)
      | cons y before =>
        have hhead : p.entries i = [] ++ y :: (before ++ e :: rest) := hlist
        have hy := (h.isPrevious_iff hi hhead).1 ht
        have hne := h.ne_of_split hi hhead x (Or.inr (by simp [hx]))
        exact hne (h.isReserved_eq hi hy hxres)
    · cases hnone

/-- Writing hints and lockings of a list is what a search may do. -/
theorem searched_setList {list : FreeList} (hlist : list.freeList = p.entries i)
    (hsize : list.freeSize = (p.heapFreeLists i).freeSize)
    (hcount : list.freeCount = (p.heapFreeLists i).freeCount) (n : ℕ) :
    Searched p { p.setList i list with allocSearchCount := n } := by
  have hfields : ∀ j,
      ((p.setList i list).heapFreeLists j).freeList = (p.heapFreeLists j).freeList ∧
      ((p.setList i list).heapFreeLists j).freeSize = (p.heapFreeLists j).freeSize ∧
      ((p.setList i list).heapFreeLists j).freeCount = (p.heapFreeLists j).freeCount := by
    intro j
    by_cases hj : j = i
    · subst hj
      simpa [setList] using ⟨hlist, hsize, hcount⟩
    · simp [setList, Function.update_of_ne hj]
  exact ⟨fun j => (hfields j).1, fun j => (hfields j).2.1, fun j => (hfields j).2.2,
    rfl, rfl, rfl, rfl, rfl, rfl, rfl⟩

/-- It keeps the invariant if the hints are sound. -/
theorem Sound.setList (h : p.Sound) {list : FreeList} (hlist : list.freeList = p.entries i)
    (hsize : list.freeSize = (p.heapFreeLists i).freeSize)
    (hcount : list.freeCount = (p.heapFreeLists i).freeCount) (n : ℕ)
    (hall : i < p.heapFreeListCount → list.hints.All (p.HintSound i))
    (hnodup : i < p.heapFreeListCount → list.hints.addresses.Nodup) :
    ({ p.setList i list with allocSearchCount := n } : SplitPool).Sound := by
  have hsearched := searched_setList hlist hsize hcount n
  refine hsearched.sound h fun j hj => ?_
  by_cases hji : j = i
  · subst hji
    have hself : ({ p.setList j list with allocSearchCount := n } : SplitPool).heapFreeLists j =
        list := Function.update_self ..
    refine ⟨?_, ?_⟩
    · rw [hself]
      exact (hall hj).mono fun a s ha => (hsearched.hintSound_iff j a s).2 ha
    · rw [hself]
      exact hnodup hj
  · have hother : ({ p.setList i list with allocSearchCount := n } : SplitPool).heapFreeLists j =
        p.heapFreeLists j := Function.update_of_ne hji ..
    refine ⟨?_, ?_⟩
    · rw [hother]
      exact (h.hints j hj).all.mono fun a s ha => (hsearched.hintSound_iff j a s).2 ha
    · rw [hother]
      exact (h.hints j hj).nodup

/-- A candidate for a hint that a walk ends with is sound. -/
theorem WalkOk.hintSound (h : p.Sound) (hi : i < p.heapFreeListCount) {before rest : List Extent}
    {w : Walk} (hlist : p.entries i = before ++ rest) (hw : WalkOk p i before rest w) {a : ℕ}
    (ha : w.candidateHintEntry = some a) : p.HintSound i a w.candidateHintSize := by
  obtain ⟨e, he, rfl, hfree⟩ := hw.candidate a ha
  refine ⟨⟨e, by rw [hlist]; exact List.mem_append_left _ he, rfl, hfree⟩, fun x hx hle => ?_⟩
  rw [hlist] at hx
  obtain hx | hx := List.mem_append.1 hx
  · exact hw.small x hx
  · have := (hlist ▸ h.ordered i hi).cut_lt he hx
    omega

/-- What a search of one list finds. -/
structure FoundIn (p : SplitPool) (i size : ℕ) (previous : Link) (rest : List Extent) : Prop where
  passed : ∃ before, p.entries i = before ++ rest ∧ previous = Link.last before ∧
    ∀ e ∈ before, p.IsReserved i e ∨ e.size < size
  fits : ∀ e ∈ rest.head?, size ≤ e.size ∧ ¬p.IsReserved i e

/-- The walk over a list, from its head or from the entry that a sound hint names. -/
theorem walk_spec (h : p.Sound) (hi : i < p.heapFreeListCount) (largest : ℕ)
    {used : Option AllocateHint} (hused : ∀ hint, used = some hint →
      p.HintSound i hint.heapFreeHeader hint.size ∧ hint.size < size) :
    ∃ start rest, Pool.startOfWalk (p.entries i) used = some (start, rest) ∧
      (¬∃ hint ∈ used, ∃ e ∈ rest.head?, hint.size < e.size ∨ size ≤ e.size) ∧
      ∃ passed rest' w', p.walkList size i rest
          ⟨.null, none, (used.map AllocateHint.size).getD 0, 0, largest⟩ = (w', rest') ∧
        p.entries i = passed ++ rest' ∧ WalkOk p i passed rest' w' ∧
        (∀ e ∈ passed, p.IsReserved i e ∨ e.size < size) ∧
        ∀ e ∈ rest'.head?, size ≤ e.size ∧ ¬p.IsReserved i e := by
  cases used with
  | none =>
    refine ⟨[], p.entries i, rfl, by simp, ?_⟩
    have hw : WalkOk p i [] (p.entries i) ⟨.null, none, 0, 0, largest⟩ :=
      ⟨rfl, by simp, by simp, fun _ => Or.inl rfl⟩
    obtain ⟨walked, rest', w', hwalk, hrest, hw', hsmall, hfound⟩ :=
      walkList_spec h hi size (List.nil_append _).symm hw
    exact ⟨walked, rest', w', hwalk, hrest, hw', hsmall, hfound⟩
  | some hint =>
    obtain ⟨⟨⟨e₀, he₀, hbase, hfree⟩, hbelow⟩, hlt⟩ := hused hint rfl
    obtain ⟨before, rest, hstart⟩ := @Pool.startOfWalk_isSome (p.entries i) (some hint)
      fun hint' hh => ⟨e₀, he₀, Option.some.inj hh ▸ hbase⟩
    obtain ⟨hlist, -, e, rest₁, rfl, hebase⟩ := Pool.startOfWalk_some hstart
    have hord := h.ordered i hi
    have hmem : e ∈ p.entries i := by simp [hlist]
    obtain rfl : e₀ = e := hord.eq_of_base_eq he₀ hmem (hbase.trans hebase.symm)
    have hsmall : ∀ x ∈ before ++ [e₀], p.IsReserved i x ∨ x.size ≤ hint.size := by
      intro x hx
      have hxe : x ∈ p.entries i := by
        obtain hx | hx := List.mem_append.1 hx
        · simp [hlist, hx]
        · exact List.mem_singleton.1 hx ▸ he₀
      refine hbelow x hxe ?_
      obtain hx | hx := List.mem_append.1 hx
      · have := (hlist ▸ hord).cut_lt hx (List.mem_cons_self (a := e₀))
        omega
      · rw [List.mem_singleton.1 hx, hbase]
    have hesize : e₀.size ≤ hint.size := (hsmall e₀ (by simp)).resolve_left hfree
    refine ⟨before, e₀ :: rest₁, hstart, ?_, ?_⟩
    · rintro ⟨hint', hh, x, hx, hbad⟩
      cases hh
      cases hx
      omega
    · have hw := WalkOk.first h hi largest hlist hfree hsmall
      have hlist' : p.entries i = (before ++ [e₀]) ++ rest₁ := by
        rw [hlist, List.append_assoc, List.singleton_append]
      obtain ⟨walked, rest', w', hwalk, hrest, hw', hpass, hfound⟩ :=
        walkList_spec h hi size hlist' hw
      refine ⟨(before ++ [e₀]) ++ walked, rest', w', ?_, ?_, hw', ?_, hfound⟩
      · rw [walkList]
        dsimp only
        rw [if_neg (fun hc => absurd hc.1 (by omega))]
        exact hwalk
      · rw [hlist', hrest, ← List.append_assoc]
      · intro x hx
        obtain hx | hx := List.mem_append.1 hx
        · exact (hsmall x hx).imp_right fun hle => hle.trans_lt hlt
        · exact hpass x hx

/-- `internalAllocateFromList` returns, finds an entry where there is one, and keeps the
invariant. -/
theorem internalAllocateFromList_spec (h : p.Sound) (hi : i < p.heapFreeListCount)
    (size largest : ℕ) :
    ∃ p' w rest, p.internalAllocateFromList size i largest = some (p', w, rest) ∧
      Searched p p' ∧ p'.Sound ∧ FoundIn p i size w.previousFreeEntry rest := by
  have hhints := h.hints i hi
  unfold internalAllocateFromList
  dsimp only
  have hall : ((p.heapFreeLists i).findHint size).1.All (p.HintSound i) :=
    (HintCache.findHint_all hhints.all).mono fun a s ha => ha.1
  have hnodup : ((p.heapFreeLists i).findHint size).1.addresses.Nodup :=
    HintCache.findHint_nodup hhints.nodup
  have hused : ∀ hint, ((p.heapFreeLists i).findHint size).2 = some hint →
      p.HintSound i hint.heapFreeHeader hint.size ∧ hint.size < size := by
    intro hint hf
    obtain ⟨hmem, -, hlt⟩ := HintCache.findHint_some hf
    exact ⟨hhints.all hint hmem, hlt⟩
  generalize (p.heapFreeLists i).findHint size = found at hall hnodup hused ⊢
  obtain ⟨start, rest, hstart, hassert, passed, rest', w', hwalk, hlist, hw, hsmall, hfound⟩ :=
    walk_spec h hi largest hused
  simp only [hstart]
  rw [if_neg hassert, hwalk]
  refine ⟨_, w', rest', rfl, searched_setList (by rfl) (by rfl) (by rfl) _, ?_, ⟨passed, hlist, hw.previous, hsmall⟩,
    hfound⟩
  unfold hintsAfterWalk
  dsimp only
  split
  · rename_i hlong
    -- a long walk has passed an entry that is not reserved
    cases hc : w'.candidateHintEntry with
    | none =>
      have hcount : w'.walkCount ≤ 1 := by
        obtain hzero | ⟨hone, -⟩ := hw.missing hc <;> omega
      have hlong := hlong.2
      simp only [Pool.wantsHint, Bool.or_eq_true, decide_eq_true_eq, Bool.and_eq_true] at hlong
      unfold hintMaxWalk at hlong
      obtain hlong | ⟨hlong, -⟩ := hlong <;> omega
    | some a =>
      exact h.setList (by rfl) (by rfl) (by rfl) _
        (fun _ => HintCache.addHint_all hall (hw.hintSound h hi hlist hc))
        fun _ => HintCache.addHint_nodup hnodup
  · exact h.setList (by rfl) (by rfl) (by rfl) _ (fun _ => hall) fun _ => hnodup

theorem searched_acquire (p : SplitPool) (i : ℕ) (locking : Bool) :
    Searched p (p.acquire i locking) := by
  unfold acquire
  split
  · exact searched_setList (by rfl) (by rfl) (by rfl) p.allocSearchCount
  · exact Searched.refl p

theorem Sound.acquire (h : p.Sound) (i : ℕ) (locking : Bool) : (p.acquire i locking).Sound := by
  unfold SplitPool.acquire
  split
  · exact h.setList (by rfl) (by rfl) (by rfl) p.allocSearchCount (fun hi => (h.hints i hi).all)
      fun hi => (h.hints i hi).nodup
  · exact h

/-- An entry that an allocation may take from, with the right link to the one before it. -/
structure Hit (p : SplitPool) (f : Found) : Prop where
  cur_lt : f.curFreeList < p.heapFreeListCount
  suggested_lt : f.suggestedFreeList < p.heapFreeListCount
  place : ∃ before, p.entries f.curFreeList = before ++ f.freeEntry :: f.entryNext ∧
    f.previousFreeEntry = Link.last before

section Loop

variable {visit : SplitPool → ℕ → ℕ → ℕ → Option (SplitPool × ℕ × Option Found)}
  {Good : SplitPool → Found → Prop} {Exhausted : SplitPool → ℕ → Prop}

theorem findGoodStartFreeList_lt (h : 0 < p.heapFreeListCount) :
    p.findGoodStartFreeList < p.heapFreeListCount := by
  unfold findGoodStartFreeList
  have key : ∀ (l : List ℕ) (best : ℕ × ℕ), (∀ i ∈ l, i < p.heapFreeListCount) →
      best.1 < p.heapFreeListCount → (l.foldl (fun best i =>
        if p.entries i ≠ [] ∧ (p.heapFreeLists i).timesLocked < best.2 then
          (i, (p.heapFreeLists i).timesLocked)
        else best) best).1 < p.heapFreeListCount := by
    intro l
    induction l with
    | nil => exact fun best _ hb => hb
    | cons i l ih =>
      intro best hl hb
      rw [List.foldl_cons]
      refine ih _ (fun j hj => hl j (List.mem_cons_of_mem _ hj)) ?_
      split
      · exact hl i (List.mem_cons_self ..)
      · exact hb
  exact key _ _ (fun i hi => List.mem_range.1 hi) h

/-- What a visit to a list must do for the loop to be right: find something good there, or
show that there is nothing. -/
def VisitOk (visit : SplitPool → ℕ → ℕ → ℕ → Option (SplitPool × ℕ × Option Found))
    (Good : SplitPool → Found → Prop) (Exhausted : SplitPool → ℕ → Prop) : Prop :=
  ∀ {p : SplitPool} {cur suggested : ℕ} (largest : ℕ), p.Sound → cur < p.heapFreeListCount →
    suggested < p.heapFreeListCount → ∃ p' largest' r,
      visit p cur suggested largest = some (p', largest', r) ∧ Searched p p' ∧ p'.Sound ∧
        (∀ f, r = some f → Hit p' f ∧ Good p' f) ∧ (r = none → Exhausted p' cur)

/-- The loop after its first round: `k` lists from the suggested one on have been looked at. -/
theorem searchLists_around (hvisit : VisitOk visit Good Exhausted)
    (hkeep : ∀ {p p' : SplitPool} {j : ℕ}, Searched p p' → Exhausted p j → Exhausted p' j)
    {fuel : ℕ} : ∀ {p : SplitPool} {k suggested : ℕ} (largest : ℕ), p.Sound →
      suggested < p.heapFreeListCount → k < p.heapFreeListCount →
      p.heapFreeListCount ≤ fuel + k →
      (∀ j < k, Exhausted p ((suggested + j) % p.heapFreeListCount)) →
      ∃ p' largest' r, searchLists visit fuel p ((suggested + k) % p.heapFreeListCount) suggested
          largest false = some (p', largest', r) ∧ Searched p p' ∧ p'.Sound ∧
        (∀ f, r = some f → Hit p' f ∧ Good p' f) ∧
        (r = none → ∀ j < p.heapFreeListCount, Exhausted p' j) := by
  induction fuel with
  | zero =>
    intro p k suggested largest _ _ hk hfuel
    omega
  | succ fuel ih =>
    intro p k suggested largest h hsug hk hfuel hdone
    have hcur : (suggested + k) % p.heapFreeListCount < p.heapFreeListCount :=
      Nat.mod_lt _ h.count_pos
    obtain ⟨p₁, largest₁, r₁, hv, hs₁, h₁, hgood, hex⟩ := hvisit largest h hcur hsug
    unfold searchLists
    rw [hv]
    cases r₁ with
    | some f => exact ⟨p₁, largest₁, some f, rfl, hs₁, h₁, hgood, fun hn => nomatch hn⟩
    | none =>
      have hcount := hs₁.count
      have hdone' : ∀ j < k + 1, Exhausted p₁ ((suggested + j) % p₁.heapFreeListCount) := by
        intro j hj
        rw [hcount]
        obtain hj | rfl := Nat.lt_succ_iff_lt_or_eq.1 hj
        · exact hkeep hs₁ (hdone j hj)
        · exact hex rfl
      have hnext : ((suggested + k) % p.heapFreeListCount + 1) % p₁.heapFreeListCount =
          (suggested + (k + 1)) % p₁.heapFreeListCount := by
        rw [hcount, Nat.mod_add_mod, Nat.add_assoc]
      dsimp only
      rw [if_neg (by simp), hnext]
      by_cases hlast : k + 1 = p.heapFreeListCount
      · have hback : (suggested + (k + 1)) % p₁.heapFreeListCount = suggested := by
          rw [hcount, hlast, Nat.add_mod_right, Nat.mod_eq_of_lt hsug]
        rw [if_neg (not_not.2 hback)]
        refine ⟨p₁, largest₁, none, rfl, hs₁, h₁, fun f hf => (nomatch hf), fun _ j hj => ?_⟩
        -- every list is some number of steps behind the suggested one
        obtain ⟨d, hd, heq⟩ : ∃ d < p.heapFreeListCount,
            (suggested + d) % p.heapFreeListCount = j := by
          obtain hle | hlt := Nat.le_total suggested j
          · exact ⟨j - suggested, by omega, by
              rw [Nat.add_sub_cancel' hle, Nat.mod_eq_of_lt hj]⟩
          · refine ⟨if suggested = j then 0 else j + p.heapFreeListCount - suggested, ?_, ?_⟩
            · split <;> omega
            · split
              · subst_vars
                rw [Nat.add_zero, Nat.mod_eq_of_lt hj]
              · rw [show suggested + (j + p.heapFreeListCount - suggested) =
                  j + p.heapFreeListCount by omega, Nat.add_mod_right, Nat.mod_eq_of_lt hj]
        have := hdone' d (by omega)
        rwa [hcount, heq] at this
      · have hne : (suggested + (k + 1)) % p₁.heapFreeListCount ≠ suggested := by
          rw [hcount]
          intro heq
          have hdvd : p.heapFreeListCount ∣ k + 1 :=
            (Nat.modEq_zero_iff_dvd.1 (Nat.ModEq.add_left_cancel' suggested (by
              show (suggested + (k + 1)) % _ = (suggested + 0) % _
              rw [heq, Nat.add_zero, Nat.mod_eq_of_lt hsug])))
          have := Nat.le_of_dvd (by omega) hdvd
          omega
        rw [if_pos hne]
        obtain ⟨p₂, largest₂, r₂, hloop, hs₂, h₂, hgood₂, hex₂⟩ := @ih p₁ (k + 1) suggested
          largest₁ h₁ (hcount ▸ hsug) (by omega) (by omega) hdone'
        exact ⟨p₂, largest₂, r₂, hloop, hs₁.trans hs₂, h₂, hgood₂,
          fun hn j hj => hex₂ hn j (hcount ▸ hj)⟩

/-- The whole loop: it finds something good, or there is nothing in any list. -/
theorem searchLists_spec (hvisit : VisitOk visit Good Exhausted)
    (hkeep : ∀ {p p' : SplitPool} {j : ℕ}, Searched p p' → Exhausted p j → Exhausted p' j)
    (h : p.Sound) {start : ℕ} (hstart : start < p.heapFreeListCount) (largest : ℕ) :
    ∃ p' largest' r, searchLists visit (p.heapFreeListCount + 1) p start start largest true =
        some (p', largest', r) ∧ Searched p p' ∧ p'.Sound ∧
      (∀ f, r = some f → Hit p' f ∧ Good p' f) ∧
      (r = none → ∀ j < p.heapFreeListCount, Exhausted p' j) := by
  obtain ⟨p₁, largest₁, r₁, hv, hs₁, h₁, hgood, hex⟩ := hvisit largest h hstart hstart
  unfold searchLists
  rw [hv]
  cases r₁ with
  | some f => exact ⟨p₁, largest₁, some f, rfl, hs₁, h₁, hgood, fun hn => nomatch hn⟩
  | none =>
    have hlt := findGoodStartFreeList_lt h₁.count_pos
    have hfuel : p₁.heapFreeListCount ≤ p.heapFreeListCount + 0 := hs₁.count.le
    obtain ⟨p₂, largest₂, r₂, hloop, hs₂, h₂, hgood₂, hex₂⟩ := searchLists_around hvisit hkeep
      largest₁ h₁ hlt h₁.count_pos hfuel (by simp)
    rw [Nat.add_zero, Nat.mod_eq_of_lt hlt] at hloop
    exact ⟨p₂, largest₂, r₂, hloop, hs₁.trans hs₂, h₂, hgood₂,
      fun hn j hj => hex₂ hn j (hs₁.count ▸ hj)⟩

end Loop

/-- Nothing in a list is large enough, the reserved entry apart. -/
def TooSmall (size : ℕ) (p : SplitPool) (i : ℕ) : Prop :=
  ∀ e ∈ p.entries i, p.IsReserved i e ∨ e.size < size

theorem TooSmall.searched {p' : SplitPool} (hs : Searched p p') (h : TooSmall size p i) :
    TooSmall size p' i := by
  intro e he
  rw [hs.isReserved_iff]
  exact h e (hs.freeList i ▸ he)

/-- The first pass of `internalAllocate` looks for an entry that is large enough and is not
reserved. -/
theorem visitList_ok (size : ℕ) (locking : Bool) : VisitOk (visitList size locking)
    (fun p f => size ≤ f.freeEntry.size ∧ ¬p.IsReserved f.curFreeList f.freeEntry)
    (TooSmall size) := by
  intro p cur suggested largest h hcur hsug
  unfold visitList
  split
  · rename_i hnil
    refine ⟨p, largest, none, rfl, Searched.refl p, h, fun f hf => (nomatch hf), fun _ e he => ?_⟩
    rw [hnil] at he
    cases he
  · have hacq := searched_acquire p cur locking
    obtain ⟨p', w, rest, hfrom, hs, h', ⟨before, hlist, hprev, hsmall⟩, hfits⟩ :=
      internalAllocateFromList_spec (h.acquire cur locking) (hacq.count ▸ hcur) size largest
    have hs' := hacq.trans hs
    rw [hfrom]
    refine ⟨p', w.largestFreeEntry, _, rfl, hs', h', fun f hf => ?_, fun hnone => ?_⟩
    · cases rest with
      | nil => cases hf
      | cons e rest =>
        cases hf
        obtain ⟨hle, hfree⟩ := hfits e rfl
        refine ⟨⟨hs'.count ▸ hcur, hs'.count ▸ hsug, before, ?_, hprev⟩, hle, ?_⟩
        · exact (hs.freeList cur).trans hlist
        · rwa [hs.isReserved_iff]
    · cases rest with
      | cons e rest => cases hnone
      | nil =>
        rw [List.append_nil] at hlist
        exact TooSmall.searched hs fun e he => hsmall e (hlist ▸ he)

/-- The first pass of `internalAllocateTLH` takes any entry that is not reserved. -/
theorem visitListTLH_ok (locking : Bool) : VisitOk (visitListTLH locking)
    (fun p f => ¬p.IsReserved f.curFreeList f.freeEntry)
    (fun p i => ∀ e ∈ p.entries i, p.IsReserved i e) := by
  intro p cur suggested largest h hcur hsug
  have hacq := searched_acquire p cur locking
  have h' := h.acquire cur locking
  unfold visitListTLH
  cases hlist : p.entries cur with
  | nil =>
    refine ⟨p, largest, none, rfl, Searched.refl p, h, fun f hf => (nomatch hf), fun _ e he => ?_⟩
    rw [hlist] at he
    cases he
  | cons e rest =>
    have hlist' : (p.acquire cur locking).entries cur = [] ++ e :: rest :=
      (hacq.freeList cur).trans hlist
    have hcur' : cur < (p.acquire cur locking).heapFreeListCount := hacq.count ▸ hcur
    have htest := h'.isPrevious_iff hcur' hlist'
    rw [Link.last_nil] at htest
    dsimp only
    split
    · rename_i ht
      have hres := htest.1 ht
      refine ⟨_, largest, _, rfl, hacq, h', fun f hf => ?_, fun hnone => ?_⟩
      · cases rest with
        | nil => cases hf
        | cons e' rest =>
          cases hf
          refine ⟨⟨hcur', hacq.count ▸ hsug, [e], hlist', rfl⟩, fun hres' => ?_⟩
          exact h'.ne_of_split hcur' hlist' e' (Or.inr (by simp)) (h'.isReserved_eq hcur' hres hres')
      · cases rest with
        | cons e' rest => cases hnone
        | nil =>
          intro x hx
          rw [hlist'] at hx
          obtain rfl := List.mem_singleton.1 hx
          exact hres
    · rename_i ht
      refine ⟨_, largest, _, rfl, hacq, h', fun f hf => ?_, fun hnone => nomatch hnone⟩
      cases hf
      exact ⟨⟨hcur', hacq.count ▸ hsug, [], hlist', rfl⟩, fun hres => ht (htest.2 hres)⟩

/-- The second pass finds the reserved entry if there is one. -/
theorem searchReserved_spec (h : p.Sound) (locking assert : Bool) :
    ∃ p' r, p.searchReserved locking assert = some (p', r) ∧ Searched p p' ∧ p'.Sound ∧
      (∀ f, r = some f → Hit p' f ∧ p'.IsReserved f.curFreeList f.freeEntry) ∧
      (r = none → p.IsReset) := by
  unfold searchReserved
  dsimp only
  obtain hreset | ⟨i, e, xs, ys, hn⟩ := h.reserved
  · rw [if_pos (Or.inl hreset.index)]
    exact ⟨p, none, rfl, Searched.refl p, h, fun f hf => (nomatch hf), fun _ => hreset⟩
  · have hindex := hn.index
    have hlt := hn.index_lt
    have hne : ¬(p.reservedFreeListIndex = p.heapFreeListCount ∨
        p.entries p.reservedFreeListIndex = []) := by
      rw [hindex, hn.entries_eq]
      simp [hlt.ne]
    have hacq := searched_acquire p i locking
    have hn' := hacq.names hn
    have hnext := ((p.acquire i locking).heapFreeLists i).next_last
      ((h.acquire i locking).ordered i (hacq.count ▸ hlt)) hn'.entries_eq
    rw [if_neg hne, if_neg (by simp [hn.avaliable]), hindex]
    have hget : (p.acquire i locking).getReservedFreeEntry = some (e :: ys) := by
      unfold getReservedFreeEntry
      rw [if_pos hn'.avaliable, hn'.index, if_pos hn'.index_lt, hn'.previous, hnext]
      dsimp only
      rw [if_pos hn'.size.symm]
    rw [hget]
    refine ⟨_, _, rfl, hacq, h.acquire i locking, fun f hf => ?_, fun hnone => nomatch hnone⟩
    cases hf
    exact ⟨⟨hn'.index_lt, hn'.index_lt, xs, hn'.entries_eq, hn'.previous⟩, xs, ys, hn'⟩

end OMR.GC.SplitPool
