import OMR.Compiler.CodeCacheInvariant

/-!
# Taking a free block of a code cache

The search keeps the biggest and the second biggest block that it has seen. When
the best fit is the biggest block, the second biggest and what is left of the best
fit tell the size of the largest block that remains.
-/

namespace OMR.Compiler.CodeCache

open OMR.Lib

/-- What the search knows after the blocks `seen`. -/
structure Scanned (size : ℕ) (seen : List Extent) (s : Candidates) : Prop where
  best_none : s.bestFit = none → ∀ e ∈ seen, e.size < size
  best_some : ∀ b, s.bestFit = some b → b ∈ seen ∧ size ≤ b.size
  biggest_none : s.biggest = none → seen = [] ∧ s.secondBiggest = none
  biggest_some : ∀ b, s.biggest = some b → ∃ rest, seen.Perm (b :: rest) ∧
    (∀ e ∈ rest, e.size ≤ b.size) ∧
    largestSize rest = (s.secondBiggest.map Extent.size).getD 0

section Search

variable {c : CodeCache} {size : ℕ} {isCold : Bool} {seen l : List Extent} {s : Candidates}
  {curr : Extent}

theorem Scanned.nil : Scanned size [] ⟨none, none, none⟩ where
  best_none _ := by simp
  best_some _ h := by simp at h
  biggest_none _ := ⟨rfl, rfl⟩
  biggest_some _ h := by simp at h

/-- The best fit is chosen without regard to the two biggest blocks. -/
theorem Candidates.visit_bestFit_eq (s : Candidates) :
    (s.visit size curr).bestFit = (visit size ⟨none, none, s.bestFit⟩ curr).bestFit := by
  obtain ⟨biggest, second, best⟩ := s
  cases biggest with
  | none => rfl
  | some biggest =>
    by_cases hge : curr.size ≥ biggest.size
    · simp only [visit, if_pos hge]
    · cases second <;> simp only [visit, if_neg hge]

/-- One more block becomes the best fit, or the best fit stays. -/
theorem Candidates.visit_bestFit (s : Candidates) :
    (size ≤ curr.size ∧ (s.visit size curr).bestFit = some curr) ∨
      ((s.visit size curr).bestFit = s.bestFit ∧ (s.bestFit = none → curr.size < size)) := by
  rw [visit_bestFit_eq]
  by_cases hge : curr.size ≥ size
  · cases hbest : s.bestFit with
    | none => exact Or.inl ⟨hge, by simp only [visit, if_pos hge]⟩
    | some best =>
      by_cases hgt : best.size > curr.size
      · exact Or.inl ⟨hge, by simp only [visit, if_pos hge, if_pos hgt]⟩
      · exact Or.inr ⟨by simp only [visit, if_pos hge, if_neg hgt], by simp⟩
  · exact Or.inr ⟨by simp only [visit, if_neg hge], fun _ => not_le.1 hge⟩

/-- There is a biggest block once a block has been seen. -/
theorem Candidates.visit_biggest_ne_none (s : Candidates) : (s.visit size curr).biggest ≠ none := by
  obtain ⟨biggest, second, best⟩ := s
  cases biggest with
  | none => simp [visit]
  | some biggest =>
    by_cases hge : curr.size ≥ biggest.size
    · simp [visit, hge]
    · cases second <;> simp [visit, hge]

theorem Scanned.visit (h : Scanned size seen s) (curr : Extent) :
    Scanned size (curr :: seen) (s.visit size curr) := by
  constructor
  case best_none =>
    intro hnone
    rcases s.visit_bestFit with ⟨-, hbest⟩ | ⟨hbest, hsmall⟩
    · exact absurd (hbest.symm.trans hnone) (Option.some_ne_none _)
    · rw [hbest] at hnone
      exact List.forall_mem_cons.2 ⟨hsmall hnone, h.best_none hnone⟩
  case best_some =>
    intro b hb
    rcases s.visit_bestFit with ⟨hge, hbest⟩ | ⟨hbest, -⟩
    · obtain rfl : curr = b := Option.some.inj (hbest.symm.trans hb)
      exact ⟨List.mem_cons_self, hge⟩
    · obtain ⟨hmem, hge⟩ := h.best_some b (hbest.symm.trans hb)
      exact ⟨List.mem_cons_of_mem _ hmem, hge⟩
  case biggest_none => exact fun hnone => absurd hnone s.visit_biggest_ne_none
  case biggest_some =>
    intro b hb
    simp only [Candidates.visit] at hb ⊢
    cases hbig : s.biggest with
    | none =>
      obtain ⟨rfl, hsecond⟩ := h.biggest_none hbig
      rw [hbig] at hb
      obtain rfl : curr = b := Option.some.inj hb
      exact ⟨[], List.Perm.refl _, by simp, by simp [hsecond]⟩
    | some biggest =>
      obtain ⟨rest, hperm, hle, hlargest⟩ := h.biggest_some biggest hbig
      rw [hbig] at hb
      simp only at hb ⊢
      by_cases hge : curr.size ≥ biggest.size
      · -- the block takes the place of the biggest one, which becomes the second one
        simp only [if_pos hge] at hb ⊢
        obtain rfl : curr = b := Option.some.inj hb
        refine ⟨biggest :: rest, hperm.cons _, ?_, ?_⟩
        · exact List.forall_mem_cons.2 ⟨hge, fun e he => (hle e he).trans hge⟩
        · simp only [largestSize_cons, Option.map_some, Option.getD_some]
          exact max_eq_left (largestSize_le hle)
      · simp only [if_neg hge] at hb ⊢
        have hswap : (curr :: seen).Perm (biggest :: curr :: rest) :=
          (hperm.cons curr).trans (List.Perm.swap _ _ _)
        have hle' : ∀ e ∈ curr :: rest, e.size ≤ biggest.size :=
          List.forall_mem_cons.2 ⟨(not_le.1 hge).le, hle⟩
        cases hsecond : s.secondBiggest with
        | none =>
          rw [hsecond] at hb hlargest
          obtain rfl : biggest = b := Option.some.inj hb
          refine ⟨curr :: rest, hswap, hle', ?_⟩
          simp only [largestSize_cons, hlargest, Option.map_none, Option.getD_none, Option.map_some,
            Option.getD_some, Nat.max_zero]
        | some second =>
          rw [hsecond] at hb hlargest
          obtain rfl : biggest = b := Option.some.inj hb
          refine ⟨curr :: rest, hswap, hle', ?_⟩
          simp only [Option.map_some, Option.getD_some] at hlargest ⊢
          rw [largestSize_cons, hlargest]
          split_ifs with hcurr
          · exact max_eq_left hcurr
          · exact max_eq_right (not_le.1 hcurr).le

/-- The search over a whole list sees the blocks of its side. -/
theorem search_scanned (h : Scanned size seen s) : ∃ seen',
    seen'.Perm (l.filter (c.eligible isCold) ++ seen) ∧
      Scanned size seen' (c.search size isCold l s) := by
  induction l generalizing seen s with
  | nil => exact ⟨seen, List.Perm.refl _, h⟩
  | cons curr l ih =>
    rw [search]
    by_cases helig : c.eligible isCold curr
    · rw [if_pos helig, List.filter_cons_of_pos helig]
      obtain ⟨seen', hperm, hscanned⟩ := ih (h.visit curr)
      exact ⟨seen', hperm.trans List.perm_middle, hscanned⟩
    · rw [if_neg helig, List.filter_cons_of_neg helig]
      exact ih h

/-- The search finds a block exactly when there is one that is large enough. -/
theorem search_bestFit (hle : size ≤ largestSize (l.filter (c.eligible isCold)))
    (hpos : 0 < size) :
    ∃ b, (c.search size isCold l ⟨none, none, none⟩).bestFit = some b := by
  obtain ⟨seen, hperm, hscanned⟩ := @search_scanned c size isCold [] l _ Scanned.nil
  rw [List.append_nil] at hperm
  by_contra hnone
  have hall := hscanned.best_none (by
    cases hbest : (c.search size isCold l ⟨none, none, none⟩).bestFit with
    | none => rfl
    | some b => exact absurd ⟨b, hbest⟩ hnone)
  have hlt : largestSize (l.filter (c.eligible isCold)) < size := by
    rw [← largestSize_perm hperm]
    have : largestSize seen ≤ size - 1 := largestSize_le fun e he => by
      have := hall e he
      omega
    omega
  omega

end Search

section Take

variable {c : CodeCache} {size : ℕ} {isCold : Bool} {xs ys live : List Extent} {best : Extent}

theorem unlink_eq (h : AddressOrdered (xs ++ best :: ys)) (left : Option Extent) :
    unlink best.base left (xs ++ best :: ys) = xs ++ (left.toList ++ ys) := by
  induction xs with
  | nil => simp [unlink]
  | cons x xs ih =>
    have hne : x.base ≠ best.base := by
      have hpos := h.size_pos x (by simp)
      have htop := (AddressOrdered.cons_iff.1 h).2.2 best (by simp)
      simp only [Extent.top] at htop
      omega
    rw [List.cons_append, unlink, if_neg hne, ih (AddressOrdered.cons_iff.1 h).2.1]
    rfl

/-- What is left of a block is the end of it. -/
theorem leftOver_spec {left : Extent} (h : leftOver size best = some left) :
    minSizeBlock ≤ left.size ∧ left.base = best.base + size ∧ left.top = best.top := by
  rw [leftOver] at h
  split_ifs at h with hge
  obtain rfl := Option.some.inj h
  refine ⟨hge, rfl, ?_⟩
  simp only [minSizeBlock, Extent.top] at hge ⊢
  omega

/-- The block taken, which is the whole best fit or the beginning of it. -/
def takenFrom (size : ℕ) (best : Extent) : Extent :=
  ⟨best.base, if (leftOver size best).isSome then size else best.size⟩

theorem takenFrom_spec (h : size ≤ best.size) :
    size ≤ (takenFrom size best).size ∧ (takenFrom size best).Within best ∧
      ∀ left ∈ (leftOver size best).toList, (takenFrom size best).top = left.base := by
  cases hleft : leftOver size best with
  | none => simp [takenFrom, hleft, h, Extent.Within, Extent.top]
  | some left =>
    obtain ⟨-, hbase, -⟩ := leftOver_spec hleft
    simp [takenFrom, hleft, h, Extent.Within, Extent.top, hbase]

/-- What is left of the best fit stays on the list. -/
theorem mem_left_within {left : Extent} (h : left ∈ (leftOver size best).toList) :
    left.Within best ∧ 0 < left.size := by
  obtain ⟨hsize, hbase, htop⟩ := leftOver_spec (Option.mem_toList.1 h)
  rw [minSizeBlock] at hsize
  exact ⟨⟨by omega, htop.le⟩, by omega⟩

/-- The list after the best fit has been taken is ordered, and its blocks are parts
of the old ones that are apart from the block taken. -/
theorem taken_ordered (h : AddressOrdered (xs ++ best :: ys)) (hle : size ≤ best.size) :
    AddressOrdered (xs ++ ((leftOver size best).toList ++ ys)) ∧
      ∀ e ∈ xs ++ ((leftOver size best).toList ++ ys),
        e.Apart (takenFrom size best) ∧ ∃ e' ∈ xs ++ best :: ys, e.Within e' := by
  obtain ⟨-, hwithin, hleft⟩ := takenFrom_spec hle
  obtain ⟨hbefore, hafter⟩ := h.around
  constructor
  · refine AddressOrdered.replace (m := [best]) h ?_ ?_
    · cases hleft : leftOver size best with
      | none => exact AddressOrdered.nil
      | some left => exact AddressOrdered.singleton (mem_left_within (Option.mem_toList.2 hleft)).2
    · exact fun e he => ⟨best, by simp, (mem_left_within he).1⟩
  · intro e he
    rcases List.mem_append.1 he with he | he
    · exact ⟨Or.inl ((hbefore e he).trans hwithin.1), e, by simp [he], e.within_refl⟩
    · rcases List.mem_append.1 he with he | he
      · exact ⟨Or.inr (hleft e he).le, best, by simp, (mem_left_within he).1⟩
      · exact ⟨Or.inr (hwithin.2.trans (hafter e he)), e, by simp [he], e.within_refl⟩

/-- The cache with another size of the largest warm or cold free block. -/
def setLargest (c : CodeCache) (isCold : Bool) (n : ℕ) : CodeCache :=
  if isCold then { c with sizeOfLargestFreeColdBlock := n }
  else { c with sizeOfLargestFreeWarmBlock := n }

@[simp] theorem setLargest_freeBlockList (n : ℕ) :
    (c.setLargest isCold n).freeBlockList = c.freeBlockList := by
  cases isCold <;> rfl

@[simp] theorem setLargest_warmCodeAlloc (n : ℕ) :
    (c.setLargest isCold n).warmCodeAlloc = c.warmCodeAlloc := by
  cases isCold <;> rfl

@[simp] theorem setLargest_coldCodeAlloc (n : ℕ) :
    (c.setLargest isCold n).coldCodeAlloc = c.coldCodeAlloc := by
  cases isCold <;> rfl

theorem setLargest_sizeOfLargest (n : ℕ) (side : Bool) :
    (c.setLargest isCold n).sizeOfLargest side = if side = isCold then n else c.sizeOfLargest side := by
  cases isCold <;> cases side <;> rfl

/-- `findFreeBlock` when the search has found a block. -/
theorem findFreeBlock_eq
    (hbest : (c.search size isCold c.freeBlockList ⟨none, none, none⟩).bestFit = some best) :
    c.findFreeBlock size isCold = (some (takenFrom size best),
      if (c.search size isCold c.freeBlockList ⟨none, none, none⟩).biggest.map Extent.base =
          some best.base then
        setLargest { c with freeBlockList := unlink best.base (leftOver size best) c.freeBlockList }
          isCold (max (((leftOver size best).map Extent.size).getD 0)
            (((c.search size isCold c.freeBlockList ⟨none, none, none⟩).secondBiggest.map
              Extent.size).getD 0))
      else { c with freeBlockList := unlink best.base (leftOver size best) c.freeBlockList }) := by
  simp only [findFreeBlock, hbest, takenFrom, setLargest]
  split_ifs <;> rfl

/-- The largest size on the side of the best fit once it has been taken. -/
theorem largestSize_taken {p : Extent → Bool} (hleft : ∀ left ∈ (leftOver size best).toList, p left) :
    largestSize ((xs ++ ((leftOver size best).toList ++ ys)).filter p) =
      max (((leftOver size best).map Extent.size).getD 0)
        (largestSize (xs.filter p ++ ys.filter p)) := by
  rw [List.filter_append, List.filter_append, List.filter_eq_self.2 hleft, largestSize_append,
    largestSize_append, largestSize_append]
  cases hlo : leftOver size best with
  | none => simp
  | some left =>
    simp only [Option.toList_some, largestSize_cons, largestSize_nil, Option.map_some,
      Option.getD_some]
    omega

/-- The biggest and the second biggest block of the search tell the largest size that
remains on the side of the best fit. -/
theorem Scanned.largestSize_taken {p : Extent → Bool} {seen : List Extent} {s : Candidates}
    (h : Scanned size seen s) (hperm : seen.Perm ((xs ++ best :: ys).filter p))
    (hordered : AddressOrdered (xs ++ best :: ys)) (hbest : p best)
    (hleft : ∀ left ∈ (leftOver size best).toList, p left) :
    largestSize ((xs ++ ((leftOver size best).toList ++ ys)).filter p) =
      if s.biggest.map Extent.base = some best.base then
        max (((leftOver size best).map Extent.size).getD 0)
          ((s.secondBiggest.map Extent.size).getD 0)
      else largestSize ((xs ++ best :: ys).filter p) := by
  have hfilter : (xs ++ best :: ys).filter p = xs.filter p ++ best :: ys.filter p := by
    rw [List.filter_append, List.filter_cons_of_pos hbest]
  have hothers : seen.Perm (best :: (xs.filter p ++ ys.filter p)) := by
    rw [hfilter] at hperm
    exact hperm.trans List.perm_middle
  rw [CodeCache.largestSize_taken hleft]
  cases hbig : s.biggest with
  | none =>
    obtain ⟨rfl, -⟩ := h.biggest_none hbig
    exact absurd hothers.length_eq (by simp)
  | some biggest =>
    obtain ⟨rest, hrest, hle, hlargest⟩ := h.biggest_some biggest hbig
    simp only [Option.map_some, Option.some.injEq]
    by_cases hbase : biggest.base = best.base
    · rw [if_pos hbase, ← hlargest]
      have hmem : biggest ∈ xs ++ best :: ys :=
        (List.mem_filter.1 ((hrest.symm.trans hperm).mem_iff.1 (by simp))).1
      obtain rfl := hordered.eq_of_base_eq hmem (by simp) hbase
      rw [largestSize_perm ((hrest.symm.trans hothers).cons_inv)]
    · rw [if_neg hbase, largestSize_perm (hperm.symm.trans hothers), largestSize_cons]
      have hleftLe : ((leftOver size best).map Extent.size).getD 0 ≤ best.size := by
        cases hlo : leftOver size best with
        | none => exact Nat.zero_le _
        | some left =>
          obtain ⟨-, hleftBase, hleftTop⟩ := leftOver_spec hlo
          simp only [Extent.top, Option.map_some, Option.getD_some] at *
          omega
      -- the biggest block is another one, which stays
      have hbiggest : best.size ≤ largestSize (xs.filter p ++ ys.filter p) := by
        have hmem : biggest ∈ best :: (xs.filter p ++ ys.filter p) :=
          (hrest.symm.trans hothers).mem_iff.1 (by simp)
        have hstays : biggest ∈ xs.filter p ++ ys.filter p :=
          (List.mem_cons.1 hmem).resolve_left fun heq => hbase (by rw [heq])
        have hbestRest : best ∈ biggest :: rest := (hrest.symm.trans hothers).mem_iff.2 (by simp)
        have hbestLe : best.size ≤ biggest.size :=
          hle best ((List.mem_cons.1 hbestRest).resolve_left fun heq => hbase (by rw [heq]))
        exact hbestLe.trans (le_largestSize hstays)
      omega

/-- A block is on one side only. -/
theorem eligible_not {e : Extent} (hborder : c.warmCodeAlloc ≤ c.coldCodeAlloc)
    (hside : c.OnSide e) (hpos : 0 < e.size) : c.eligible (!isCold) e = !c.eligible isCold e := by
  rw [Bool.eq_iff_iff, Bool.not_eq_true', ← Bool.not_eq_true]
  cases isCold
  · rw [eligible_iff hborder hside hpos, eligible_iff hborder hside hpos]
    simp only [OnSide, Extent.top, Bool.not_false, if_true, Bool.false_eq_true, if_false] at *
    omega
  · rw [eligible_iff hborder hside hpos, eligible_iff hborder hside hpos]
    simp only [OnSide, Extent.top, Bool.not_true, if_true, Bool.false_eq_true, if_false] at *
    omega

/-- A block in use that was a part of a free one, of which parts stay free. -/
theorem Inv.takeFree {d : CodeCache} {l' : List Extent} {taken : Extent} (h : Inv c live)
    (hwarm : d.warmCodeAlloc = c.warmCodeAlloc) (hcold : d.coldCodeAlloc = c.coldCodeAlloc)
    (hfree : d.freeBlockList = l') (hordered : AddressOrdered l')
    (hparts : ∀ e ∈ l', e.Apart taken ∧ ∃ e' ∈ c.freeBlockList, e.Within e')
    (hbest : best ∈ c.freeBlockList) (htaken : taken.Within best)
    (hsize : methodHeaderBytes ≤ taken.size)
    (hmax : ∀ side, d.sizeOfLargest side = largestSize (l'.filter (c.eligible side))) :
    Inv d (taken :: live) := by
  have hside : ∀ e : Extent, c.OnSide e → d.OnSide e := by
    intro e he
    rwa [OnSide, hwarm, hcold]
  have hfreeInv : Inv d live := by
    constructor
    case ordered => rwa [hfree]
    case border => rw [hwarm, hcold]; exact h.border
    case free_side =>
      rw [hfree]
      intro e he
      obtain ⟨-, e', he', hw⟩ := hparts e he
      exact hside e ((h.free_side e' he').mono hw)
    case live_side => exact fun b hb => hside b (h.live_side b hb)
    case live_size => exact h.live_size
    case free_live =>
      rw [hfree]
      intro e he b hb
      obtain ⟨-, e', he', hw⟩ := hparts e he
      exact (h.free_live e' he' b hb).mono hw b.within_refl
    case live_apart => exact h.live_apart
    case largest =>
      intro side
      have heligible : d.eligible side = c.eligible side := by
        funext e
        simp only [eligible, hwarm, hcold]
      rw [hmax side, hfree, heligible]
  refine hfreeInv.take (hside _ ((h.free_side best hbest).mono htaken)) hsize ?_ ?_
  · rw [hfree]
    exact fun e he => (hparts e he).1
  · exact fun b hb => ((h.free_live best hbest b hb).mono htaken b.within_refl).symm

/-- A block of the required size is found whenever the cached size says so, and the
cached sizes are right again afterwards. -/
theorem findFreeBlock_spec (isCold : Bool) (h : Inv c live) (hsize : methodHeaderBytes ≤ size)
    (hle : size ≤ c.sizeOfLargest isCold) :
    ∃ taken d, c.findFreeBlock size isCold = (some taken, d) ∧ size ≤ taken.size ∧
      Inv d (taken :: live) ∧ d.warmCodeAlloc = c.warmCodeAlloc ∧
      d.coldCodeAlloc = c.coldCodeAlloc ∧ d.sizeOfLargest (!isCold) = c.sizeOfLargest (!isCold) := by
  have hpos : 0 < size := (by decide : 0 < methodHeaderBytes).trans_le hsize
  rw [h.largest isCold] at hle
  obtain ⟨best, hbest⟩ := search_bestFit hle hpos
  obtain ⟨seen, hperm, hscanned⟩ := @search_scanned c size isCold [] c.freeBlockList _ Scanned.nil
  rw [List.append_nil] at hperm
  obtain ⟨hbestSeen, hbestSize⟩ := hscanned.best_some best hbest
  obtain ⟨hbestMem, hbestSide⟩ := List.mem_filter.1 (hperm.mem_iff.1 hbestSeen)
  obtain ⟨htaken, htakenWithin, -⟩ := takenFrom_spec hbestSize
  have hbestFree := h.free_side best hbestMem
  have heligible : ∀ side, ∀ left ∈ (leftOver size best).toList,
      c.eligible side left = c.eligible side best := fun side left hleft =>
    eligible_within h.border hbestFree (mem_left_within hleft).2 (mem_left_within hleft).1
  obtain ⟨xs, ys, hl⟩ := List.append_of_mem hbestMem
  have hordered := h.ordered
  rw [hl] at hordered hperm
  obtain ⟨hordered', hparts⟩ := taken_ordered hordered hbestSize
  have hsame := hscanned.largestSize_taken hperm hordered hbestSide fun left hleft =>
    (heligible isCold left hleft).trans hbestSide
  have hother : (xs ++ ((leftOver size best).toList ++ ys)).filter (c.eligible (!isCold)) =
      c.freeBlockList.filter (c.eligible (!isCold)) := by
    have hnot : ¬ c.eligible (!isCold) best = true := by
      rw [eligible_not h.border hbestFree (by omega), hbestSide]
      simp
    have hleft : (leftOver size best).toList.filter (c.eligible (!isCold)) = [] :=
      List.filter_eq_nil_iff.2 fun left hleft => by rwa [heligible _ left hleft]
    rw [hl, List.filter_append, List.filter_append, hleft, List.filter_append,
      List.filter_cons_of_neg hnot, List.nil_append]
  have hunlink : unlink best.base (leftOver size best) c.freeBlockList =
      xs ++ ((leftOver size best).toList ++ ys) := by
    rw [hl, unlink_eq hordered]
  have hinv : ∀ d : CodeCache, d.warmCodeAlloc = c.warmCodeAlloc →
      d.coldCodeAlloc = c.coldCodeAlloc →
      d.freeBlockList = xs ++ ((leftOver size best).toList ++ ys) →
      d.sizeOfLargest isCold = largestSize (d.freeBlockList.filter (c.eligible isCold)) →
      d.sizeOfLargest (!isCold) = c.sizeOfLargest (!isCold) → Inv d (takenFrom size best :: live) := by
    intro d hwarm hcold hfree hsame hnot
    refine h.takeFree hwarm hcold hfree hordered' ?_ hbestMem htakenWithin (hsize.trans htaken) ?_
    · rwa [hl]
    · intro side
      by_cases hside : side = isCold
      · rw [hside, hsame, hfree]
      · obtain rfl : side = !isCold := Bool.eq_not_of_ne hside
        rw [hnot, hother, h.largest]
  refine ⟨takenFrom size best, _, findFreeBlock_eq hbest, htaken, ?_⟩
  rw [hunlink]
  rw [← hl] at hsame
  by_cases hbig : (c.search size isCold c.freeBlockList ⟨none, none, none⟩).biggest.map Extent.base =
      some best.base
  · rw [if_pos hbig] at hsame ⊢
    refine ⟨hinv _ (by simp) (by simp) (by simp) ?_ ?_, by simp, by simp, ?_⟩
    · rw [setLargest_sizeOfLargest, if_pos rfl, setLargest_freeBlockList, hsame]
    · rw [setLargest_sizeOfLargest, if_neg (by simp)]
      rfl
    · rw [setLargest_sizeOfLargest, if_neg (by simp)]
      rfl
  · rw [if_neg hbig] at hsame ⊢
    refine ⟨hinv _ rfl rfl rfl ?_ rfl, rfl, rfl, rfl⟩
    rw [hsame, ← h.largest]
    rfl

end Take

end OMR.Compiler.CodeCache
