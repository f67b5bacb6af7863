import OMR.GC.CooperativeCopyInvariant

/-!
# Runs of a copy

Every step of every thread keeps the invariant. So the sections tile the object, the
winner goes on to fix the header up when all of it has been copied, and a helper returns
when that is done.
-/

namespace OMR.GC.CooperativeCopy

open OMR.Lib

variable {bytes : ℕ → BitVec 8} {preserved objectPtr destination size r k : BitVec 64}

section Header

variable {slot : BitVec 64} {w : Winner}

/-- While something remains or helpers take part, the slot says just that. -/
theorem HeaderIs.of_unfinished (h : HeaderIs preserved r k slot w) (hne : ¬ (r = 0 ∧ k = 0)) :
    slot = progress r k ∧ ∀ r' k', HeaderIs preserved r' k' (progress r' k') w := by
  cases w with
  | copying sec => exact ⟨h, fun _ _ => rfl⟩
  | looping => exact ⟨h, fun _ _ => rfl⟩
  | loaded old => exact ⟨h.1, fun _ _ => ⟨rfl, fun hr hk => absurd (h.2 hr hk) hne⟩⟩
  | copied => exact absurd h.1 hne
  | fixing changes => exact absurd h.1 hne
  | committing changes read => exact absurd h.1 hne
  | committed changes => exact absurd h.1 hne
  | clearingHint changes source => exact absurd h.1 hne
  | finished changes => exact absurd h.1 hne

theorem beingCopiedTag_ne_zero : beingCopiedTag ≠ 0 := by decide

/-- The tag is in the slot until the header is committed. -/
theorem HeaderIs.committed_of_tag (h : HeaderIs preserved r k slot w)
    (htag : slot &&& beingCopiedTag = 0) : w.Committed := by
  have hprogress {r k : BitVec 64} (heq : slot = progress r k) : False := by
    rw [heq, beingCopied_progress] at htag
    exact beingCopiedTag_ne_zero htag
  have hfixup {changes : List FlagChange} (heq : slot = fixupHeader preserved changes) : False := by
    rw [heq, fixupHeader, beingCopied_or] at htag
    exact beingCopiedTag_ne_zero htag
  cases w with
  | copying sec => exact (hprogress h).elim
  | looping => exact (hprogress h).elim
  | loaded old => exact (hprogress h.1).elim
  | copied => exact (hprogress h.2).elim
  | fixing changes => exact (hfixup h.2.2).elim
  | committing changes read => exact (hfixup h.2.2.1).elim
  | committed changes => trivial
  | clearingHint changes source => trivial
  | finished changes => trivial

theorem HeaderIs.of_committed (h : HeaderIs preserved r k slot w) (hw : w.Committed) :
    (r = 0 ∧ k = 0) ∧ (∀ c ∈ w.changes, c.Permitted) ∧
      slot = FlagChange.applyAll w.changes preserved := by
  cases w with
  | committed changes => exact h
  | clearingHint changes source => exact h
  | finished changes => exact h
  | _ => exact hw.elim

theorem HeaderIs.of_returned (h : HeaderIs preserved r k slot w) (hw : w.Returned) :
    r = 0 ∧ k = 0 := by
  cases w with
  | copying sec => exact hw.elim
  | looping => exact hw.elim
  | loaded old => exact hw.elim
  | _ => exact h.1

/-- What remains can be read from the slot until the header is committed. -/
theorem HeaderIs.remaining (h : HeaderIs preserved r k slot w) (hr : Aligned r)
    (hk : k.toNat ≤ maxOutstandingCopies.toNat) (hw : ¬ w.Committed) :
    remainingSizeToCopy slot = r ∧ outstandingCopies slot = k := by
  have hk' : k.toNat < 16 := hk.trans_lt (by decide)
  have hprogress (heq : slot = progress r k) :
      remainingSizeToCopy slot = r ∧ outstandingCopies slot = k := by
    rw [heq]
    exact ⟨remainingSizeToCopy_progress hr hk', outstandingCopies_progress hr hk'⟩
  have hfixup {changes : List FlagChange} (hzero : r = 0 ∧ k = 0)
      (heq : slot = fixupHeader preserved changes) :
      remainingSizeToCopy slot = r ∧ outstandingCopies slot = k := by
    rw [heq, hzero.1, hzero.2]
    exact ⟨remainingSizeToCopy_fixupHeader, outstandingCopies_fixupHeader⟩
  cases w with
  | copying sec => exact hprogress h
  | looping => exact hprogress h
  | loaded old => exact hprogress h.1
  | copied =>
    obtain ⟨⟨rfl, rfl⟩, heq⟩ := h
    exact hprogress heq
  | fixing changes => exact hfixup h.1 h.2.2
  | committing changes read => exact hfixup h.1 h.2.2.1
  | committed changes => exact absurd trivial hw
  | clearingHint changes source => exact absurd trivial hw
  | finished changes => exact absurd trivial hw

end Header

/-! ### Steps of a helper -/

section HelperSteps

variable {s : Shared} {w : Winner} {old : BitVec 64} {p : Bool}

/-- What `copyOrWaitOutline` may do after a read of the slot. -/
inductive AttemptResult (r k : BitVec 64) (s : Shared) (w : Winner) (p : Bool) :
    Shared × Helper → Prop
  | again : AttemptResult r k s w p (s, .looping p)
  | fullyCopied (hw : w.Committed) (hp : p = false) : AttemptResult r k s w p (s, .returned)
  | leave (hr : r = 0) (hk : 1 ≤ k.toNat) (hp : p = true) :
      AttemptResult r k s w p ({ s with slot := progress 0 (k - 1) }, .looping false)
  | win (hr : r ≠ 0) (k' : BitVec 64) (hk' : k'.toNat + p.toNat = k.toNat + 1)
      (hmax : k'.toNat ≤ maxOutstandingCopies.toNat) :
      AttemptResult r k s w p (s.win (sectionToCopy r).2 (sectionToCopy r).1 k',
        .copying (.start (sectionToCopy r).2 (sectionToCopy r).1))

theorem attempt_result (hr : Aligned r) (hk : k.toNat ≤ maxOutstandingCopies.toNat)
    (hheader : HeaderIs preserved r k s.slot w) (hpreserved : preserved &&& beingCopiedTag = 0)
    (hp : p = true → 1 ≤ k.toNat) (hold : old &&& beingCopiedTag = 0 → w.Committed) :
    AttemptResult r k s w p (Helper.attempt s p old) := by
  have hk' : k.toNat < 16 := hk.trans_lt (by decide)
  have hpos (hpt : p = true) : ¬ (r = 0 ∧ k = 0) := by
    rintro ⟨-, rfl⟩
    exact absurd (hp hpt) (by decide)
  simp only [Helper.attempt]
  by_cases htag : 0 = old &&& beingCopiedTag
  · rw [if_pos htag]
    have hw := hold htag.symm
    refine .fullyCopied hw (Bool.eq_false_iff.2 fun hpt => hpos hpt (hheader.of_committed hw).1)
  rw [if_neg htag]
  by_cases hslot : s.slot = old
  swap
  · -- someone else has been faster, or there was nothing to try
    simp only [if_neg hslot]
    split
    · split
      · rename_i hpt
        rw [← hpt]
        exact .again
      · rename_i hpf
        rw [← Bool.eq_false_iff.2 hpf]
        exact .again
    · split
      · rename_i hpf
        rw [← Bool.eq_false_iff.2 hpf.1]
        exact .again
      · exact .again
  have hw : ¬ w.Committed := by
    intro hw
    obtain ⟨-, hchanges, heq⟩ := hheader.of_committed hw
    apply htag
    rw [← hslot, heq]
    exact (tag_of_applyAll hpreserved hchanges).symm
  obtain ⟨hrem, hout⟩ := hheader.remaining hr hk hw
  rw [← hslot, hrem, hout]
  simp only [if_pos]
  by_cases hzero : (0 : BitVec 64) = r
  · rw [if_pos hzero]
    cases hpt : p with
    | true =>
      rw [if_pos rfl]
      have hprogress : ((k - 1) <<< outstandingCopiesShift) ||| beingCopiedTag = progress 0 (k - 1) := by
        change _ = 0#64 ||| _ ||| _
        rw [BitVec.zero_or]
      rw [hprogress]
      exact .leave hzero.symm (hp hpt) rfl
    | false =>
      rw [if_neg Bool.false_ne_true]
      exact .again
  rw [if_neg hzero]
  have hne : (sectionToCopy r).1 ≠ 0 := (sectionToCopy_spec hr (Ne.symm hzero)).2.1
  cases hpt : p with
  | true =>
    rw [if_neg (by simp), if_pos rfl, if_neg (Ne.symm hne)]
    exact .win (Ne.symm hzero) k rfl hk
  | false =>
    by_cases hfull : k < maxOutstandingCopies
    · rw [if_neg (by simp [hfull]), if_neg Bool.false_ne_true, if_neg (Ne.symm hne)]
      have hsucc : (k + 1).toNat = k.toNat + 1 := by
        rw [BitVec.toNat_add]
        exact Nat.mod_eq_of_lt (by simp; omega)
      exact .win (Ne.symm hzero) (k + 1) (by simpa using hsucc) (hsucc.le.trans (BitVec.lt_def.1 hfull))
    · rw [if_pos ⟨by simp, hfull⟩]
      exact .again

end HelperSteps

section Pending

theorem HelperOk.mono {w w' : Winner} (hw : w.Committed → w'.Committed) {p : Helper}
    (h : HelperOk w p) : HelperOk w' p := by
  cases p with
  | constructed g => exact fun hg => hw (h hg)
  | loaded q old => exact fun hold => hw (h hold)
  | returned => exact hw h
  | _ => trivial

theorem pending_start {r' n : BitVec 64} (hsum : r'.toNat + n.toNat = r.toNat) {x : ℕ} :
    x ∈ (Section.start r' n).pending ↔ sectionBase r' ≤ x ∧ x < sectionBase r := by
  change sectionBase r' + 0 ≤ x ∧ x < sectionBase r' + n.toNat ↔ _
  simp only [sectionBase]
  omega

/-- One more byte of a section is copied. -/
theorem pending_done {sec : Section} {x : ℕ} (hx : x ∈ sec.pending)
    (hne : x ≠ sectionBase sec.remaining + sec.done) :
    x ∈ ({ sec with done := sec.done + 1 } : Section).pending := by
  have hlo : sectionBase sec.remaining + sec.done ≤ x := hx.1
  have hlo' : sectionBase sec.remaining + (sec.done + 1) ≤ x := by omega
  exact ⟨hlo', hx.2⟩

theorem copyByte_dest (s : Shared) (sec : Section) (x : ℕ) :
    (Shared.copyByte bytes s sec).dest x =
      if x = sectionBase sec.remaining + sec.done then bytes x else s.dest x := by
  simp only [Shared.copyByte, Function.update_apply]
  split
  · rename_i hx
    rw [hx]
  · rfl

variable {ι : Type*} [DecidableEq ι] {c : ObjectCopy ι} {i : ι} {p' : Helper}

/-- The bytes that a step of a helper leaves to be copied. -/
theorem pending_after (c : ObjectCopy ι) (i : ι) (s' : Shared) {x : ℕ}
    (hi : x ∈ (c.thread i).pending → x ∈ p'.pending)
    (h : ∃ j, x ∈ (c.thread j).pending) :
    ∃ j, x ∈ ((c.toThreads.after i s' p').thread j).pending := by
  obtain ⟨j, hj⟩ := h
  by_cases hne : j = i
  · subst hne
    exact ⟨j, by simpa using hi hj⟩
  · exact ⟨j, by simpa [Threads.after_thread_of_ne _ hne] using hj⟩

theorem helperOk_after (s' : Shared)
    (h : ∀ j, HelperOk c.winner (c.thread j)) (hp' : HelperOk c.winner p') (j : ι) :
    HelperOk c.winner ((c.toThreads.after i s' p').thread j) := by
  by_cases hj : j = i
  · subst hj
    simpa using hp'
  · simpa [Threads.after_thread_of_ne _ hj] using h j

end Pending

section WinnerSteps

variable {ι : Type*} [Fintype ι] {c : ObjectCopy ι}

/-- A step of the winner that copies nothing and leaves the helpers alone. -/
theorem Inv.winner_idle (h : Inv bytes preserved destination size r k c) (s' : Shared) (w' : Winner)
    (hdest : s'.dest = c.shared.dest) (hsections : s'.sections = c.shared.sections)
    (hpending : c.winner.pending = ∅) (hw : c.winner.Committed → w'.Committed)
    (hheader : HeaderIs preserved r k s'.slot w') (hsource : SourceIs destination s'.source w') :
    Inv bytes preserved destination size r k ⟨⟨s', c.thread⟩, w'⟩ where
  aligned := h.aligned
  count := h.count
  count_le := h.count_le
  header := hheader
  source := hsource
  sections := by
    change Tiles _ _ s'.sections
    rw [hsections]
    exact h.sections
  helper j := (h.helper j).mono hw
  copied x hlo hhi := by
    change s'.dest x = _ ∨ _
    rw [hdest]
    rcases h.copied x hlo hhi with heq | hwin | hj
    · exact .inl heq
    · rw [hpending] at hwin
      exact hwin.elim
    · exact .inr (.inr hj)

theorem Inv.winner_win (h : Inv bytes preserved destination size r k c) (hr : r ≠ 0)
    (hpending : c.winner.pending = ∅) (hsource : SourceIs destination c.shared.source .looping) :
    Inv bytes preserved destination size (sectionToCopy r).2 k
      ⟨⟨c.shared.win (sectionToCopy r).2 (sectionToCopy r).1 k, c.thread⟩,
        .copying (.start (sectionToCopy r).2 (sectionToCopy r).1)⟩ := by
  obtain ⟨haligned, -, hsum⟩ := sectionToCopy_spec h.aligned hr
  exact
    { aligned := haligned
      count := h.count
      count_le := h.count_le
      header := rfl
      source := hsource
      sections := ⟨rfl, by
        have htop : (Section.start (sectionToCopy r).2 (sectionToCopy r).1).extent.top =
            sectionBase r := by
          simp only [Section.start, Section.extent, Extent.top, sectionBase]
          omega
        rw [htop]
        exact h.sections⟩
      helper := fun j => (h.helper j).mono fun hw =>
        absurd (h.header.of_committed hw).1.1 hr
      copied := fun x hlo hhi => by
        by_cases hx : x < sectionBase r
        · exact .inr (.inl ((pending_start hsum).2 ⟨hlo, hx⟩))
        · rcases h.copied x (not_lt.1 hx) hhi with heq | hwin | hj
          · exact .inl heq
          · rw [hpending] at hwin
            exact hwin.elim
          · exact .inr (.inr hj) }

theorem Inv.winner_copyByte (h : Inv bytes preserved destination size r k c) {sec : Section}
    (hw : c.winner = .copying sec) :
    Inv bytes preserved destination size r k ⟨⟨Shared.copyByte bytes c.shared sec, c.thread⟩,
      .copying { sec with done := sec.done + 1 }⟩ where
  aligned := h.aligned
  count := h.count
  count_le := h.count_le
  header := by
    have hheader := h.header
    rw [hw] at hheader
    exact hheader
  source := by
    have hsource := h.source
    rw [hw] at hsource
    exact hsource
  sections := h.sections
  helper j := (h.helper j).mono fun hcommitted => by
    rw [hw] at hcommitted
    exact hcommitted
  copied x hlo hhi := by
    change (Shared.copyByte bytes c.shared sec).dest x = bytes x ∨ _
    rw [copyByte_dest]
    by_cases hx : x = sectionBase sec.remaining + sec.done
    · exact .inl (if_pos hx)
    rw [if_neg hx]
    rcases h.copied x hlo hhi with heq | hwin | hj
    · exact .inl heq
    · rw [hw] at hwin
      exact .inr (.inl (pending_done hwin hx))
    · exact .inr (.inr hj)

theorem Inv.winner_step (h : Inv bytes preserved destination size r k c)
    (hpreserved : preserved &&& beingCopiedTag = 0) {s' : Shared} {w' : Winner}
    (hstep : WinnerStep bytes preserved c.shared c.winner s' w') :
    ∃ r' k', Inv bytes preserved destination size r' k' ⟨⟨s', c.thread⟩, w'⟩ := by
  have hheader := h.header
  have hsource := h.source
  have hidle := h.winner_idle s' w'
  have hwin := h.winner_win
  generalize hw : c.winner = w at hstep hheader hsource hidle hwin
  cases hstep with
  | @copyByte sec _ => exact ⟨r, k, h.winner_copyByte hw⟩
  | @endSection sec hdone =>
    refine ⟨r, k, hidle rfl rfl (Set.Ico_eq_empty ?_) id hheader hsource⟩
    omega
  | load =>
    refine ⟨r, k, hidle rfl rfl rfl id ⟨hheader, fun hrem hout => ?_⟩ hsource⟩
    obtain ⟨hr, hk⟩ := h.header.remaining h.aligned h.count_le (by rw [hw]; exact id)
    exact ⟨hr.symm.trans hrem, hk.symm.trans hout⟩
  | @attempt old =>
    obtain ⟨hslot, hdone⟩ := hheader
    obtain ⟨hr, hk⟩ := h.header.remaining h.aligned h.count_le (by rw [hw]; exact id)
    have hlooping := h.winner_idle c.shared .looping rfl rfl (by rw [hw]; rfl)
      (by rw [hw]; exact False.elim) hslot hsource
    simp only [Winner.attempt]
    by_cases hrem : 0 = remainingSizeToCopy old
    · rw [if_pos hrem]
      by_cases hout : 0 = outstandingCopies old
      · rw [if_pos hout]
        obtain ⟨rfl, rfl⟩ := hdone hrem.symm hout.symm
        exact ⟨0, 0, h.winner_idle c.shared .copied rfl rfl (by rw [hw]; rfl)
          (by rw [hw]; exact False.elim) ⟨⟨rfl, rfl⟩, hslot⟩ hsource⟩
      · rw [if_neg hout]
        exact ⟨r, k, hlooping⟩
    · rw [if_neg hrem]
      by_cases hold : c.shared.slot = old
      · subst hold
        rw [hr] at hrem
        have hne : (sectionToCopy r).1 ≠ 0 := (sectionToCopy_spec h.aligned (Ne.symm hrem)).2.1
        rw [hr, hk, if_pos rfl, if_neg (Ne.symm hne)]
        exact ⟨_, k, hwin (Ne.symm hrem) rfl hsource⟩
      · rw [if_neg hold]
        exact ⟨r, k, hlooping⟩
  | commenceFixup =>
    obtain ⟨hzero, -⟩ := hheader
    exact ⟨r, k, hidle rfl rfl rfl id ⟨hzero, by simp, rfl⟩ hsource⟩
  | @setObjectFlags changes f hf =>
    obtain ⟨hzero, hchanges, hslot⟩ := hheader
    refine ⟨r, k, hidle rfl rfl rfl id ⟨hzero, List.forall_mem_cons.2 ⟨hf, hchanges⟩, ?_⟩ hsource⟩
    change f.apply c.shared.slot = _
    rw [hslot, fixupHeader, hf.apply_fixup]
    rfl
  | @loadSlot changes =>
    obtain ⟨hzero, hchanges, hslot⟩ := hheader
    exact ⟨r, k, hidle rfl rfl rfl id ⟨hzero, hchanges, hslot, rfl⟩ hsource⟩
  | @storeSlot changes read =>
    obtain ⟨hzero, hchanges, hslot, hread⟩ := hheader
    refine ⟨r, k, hidle rfl rfl rfl (fun _ => trivial) ⟨hzero, hchanges, ?_⟩ hsource⟩
    change commitFixup preserved read = _
    rw [hread, hslot, fixupHeader]
    exact commitFixup_eq hpreserved (applyAll_and hchanges preserved)
  | @loadSource changes => exact ⟨r, k, hidle rfl rfl rfl id hheader hsource⟩
  | @storeSource changes source => exact ⟨r, k, hidle rfl rfl rfl id hheader trivial⟩

end WinnerSteps

section Steps

variable {ι : Type*} [Fintype ι] {c : ObjectCopy ι} {i : ι} {p' : Helper}

theorem Inv.participating_pos (h : Inv bytes preserved destination size r k c) (i : ι)
    (hi : (c.thread i).participating = true) : 1 ≤ k.toNat := by
  rw [h.count]
  exact threadCount_pos hi

/-- `copySetup` and the forwarding establish the invariant. -/
theorem Inv.start (hsize : 8 ≤ size.toNat) (dest : ℕ → BitVec 8) :
    Inv bytes preserved destination size (copySetup size).2 0
      (ObjectCopy.start size destination dest : ObjectCopy ι) := by
  obtain ⟨haligned, hsum⟩ := copySetup_spec hsize
  have htop : (Section.start (copySetup size).2 (copySetup size).1).extent.top = size.toNat := by
    simp only [Section.start, Section.extent, Extent.top, sectionBase]
    omega
  exact
    { aligned := haligned
      count := (threadCount_eq_zero.2 fun _ => rfl).symm
      count_le := Nat.zero_le _
      header := rfl
      source := rfl
      sections := ⟨rfl, htop⟩
      helper := fun _ => trivial
      copied := fun x hlo hhi => .inr (.inl ⟨hlo, hhi.trans_eq htop.symm⟩) }

variable [DecidableEq ι]

/-- A helper's step that leaves the count, the shared state and what is pending alone. -/
theorem Inv.idle (h : Inv bytes preserved destination size r k c) (i : ι) (p' : Helper)
    (hcount : p'.participating = (c.thread i).participating)
    (hpending : (c.thread i).pending = ∅) (hp' : HelperOk c.winner p') :
    Inv bytes preserved destination size r k ⟨c.toThreads.after i c.shared p', c.winner⟩ where
  aligned := h.aligned
  count := by
    have hupdate := threadCount_update Helper.participating c.thread i p'
    rw [hcount] at hupdate
    exact h.count.trans (Nat.add_right_cancel hupdate).symm
  count_le := h.count_le
  header := h.header
  source := h.source
  sections := h.sections
  helper j := by
    by_cases hj : j = i
    · subst hj
      simpa using hp'
    · simpa [Threads.after_thread_of_ne _ hj] using h.helper j
  copied x hlo hhi := by
    rcases h.copied x hlo hhi with heq | hwin | ⟨j, hj⟩
    · exact .inl heq
    · exact .inr (.inl hwin)
    · refine .inr (.inr ⟨j, ?_⟩)
      have hne : j ≠ i := by
        rintro rfl
        rw [hpending] at hj
        exact hj
      simpa [Threads.after_thread_of_ne _ hne] using hj

/-- A helper that finds nothing left stops to take part. -/
theorem Inv.leave (h : Inv bytes preserved destination size 0 k c)
    (hi : (c.thread i).participating = true) (hpending : (c.thread i).pending = ∅) :
    Inv bytes preserved destination size 0 (k - 1)
      ⟨c.toThreads.after i { c.shared with slot := progress 0 (k - 1) } (.looping false),
        c.winner⟩ := by
  have hpos := h.participating_pos i hi
  have hpred : (k - 1).toNat = k.toNat - 1 := BitVec.toNat_sub_of_le (BitVec.le_def.2 hpos)
  have hne : ¬ ((0 : BitVec 64) = 0 ∧ k = 0) := by
    rintro ⟨-, rfl⟩
    exact absurd hpos (by decide)
  exact
    { aligned := h.aligned
      count := by
        have hupdate := threadCount_update Helper.participating c.thread i (.looping false)
        rw [hi, ← h.count] at hupdate
        change threadCount _ (Function.update c.thread i (.looping false)) + 1 = k.toNat + 0 at hupdate
        change (k - 1).toNat = threadCount _ (Function.update c.thread i (.looping false))
        omega
      count_le := by
        rw [hpred]
        exact (Nat.sub_le ..).trans h.count_le
      header := (h.header.of_unfinished hne).2 0 (k - 1)
      source := h.source
      sections := h.sections
      helper := helperOk_after _ h.helper trivial
      copied := fun x hlo hhi => by
        rcases h.copied x hlo hhi with heq | hwin | hj
        · exact .inl heq
        · exact .inr (.inl hwin)
        · refine .inr (.inr (pending_after c i _ (fun hx => ?_) hj))
          rw [hpending] at hx
          exact hx.elim }

/-- A helper wins a section, and joins the others if it did not take part. -/
theorem Inv.helper_win (h : Inv bytes preserved destination size r k c) (i : ι) (hr : r ≠ 0)
    (hpending : (c.thread i).pending = ∅) {k' : BitVec 64}
    (hk' : k'.toNat + (c.thread i).participating.toNat = k.toNat + 1)
    (hmax : k'.toNat ≤ maxOutstandingCopies.toNat) :
    Inv bytes preserved destination size (sectionToCopy r).2 k'
      ⟨c.toThreads.after i (c.shared.win (sectionToCopy r).2 (sectionToCopy r).1 k')
        (.copying (.start (sectionToCopy r).2 (sectionToCopy r).1)), c.winner⟩ := by
  obtain ⟨haligned, -, hsum⟩ := sectionToCopy_spec h.aligned hr
  exact
    { aligned := haligned
      count := by
        have hupdate := threadCount_update Helper.participating c.thread i
          (.copying (.start (sectionToCopy r).2 (sectionToCopy r).1))
        rw [← h.count] at hupdate
        have htrue : (Helper.participating
          (.copying (.start (sectionToCopy r).2 (sectionToCopy r).1))).toNat = 1 := rfl
        rw [htrue] at hupdate
        exact Nat.add_right_cancel (hk'.trans hupdate.symm)
      count_le := hmax
      header := (h.header.of_unfinished fun hzero => hr hzero.1).2 _ k'
      source := h.source
      sections := ⟨rfl, by
        have htop : (Section.start (sectionToCopy r).2 (sectionToCopy r).1).extent.top =
            sectionBase r := by
          simp only [Section.start, Section.extent, Extent.top, sectionBase]
          omega
        rw [htop]
        exact h.sections⟩
      helper := helperOk_after _ h.helper trivial
      copied := fun x hlo hhi => by
        by_cases hx : x < sectionBase r
        · refine .inr (.inr ⟨i, ?_⟩)
          rw [Threads.after_thread_self]
          exact (pending_start hsum).2 ⟨hlo, hx⟩
        · rcases h.copied x (not_lt.1 hx) hhi with heq | hwin | hj
          · exact .inl heq
          · exact .inr (.inl hwin)
          · refine .inr (.inr (pending_after c i _ (fun hx => ?_) hj))
            rw [hpending] at hx
            exact hx.elim }

theorem Inv.helper_copyByte (h : Inv bytes preserved destination size r k c) {sec : Section}
    (hi : c.thread i = .copying sec) :
    Inv bytes preserved destination size r k
      ⟨c.toThreads.after i (Shared.copyByte bytes c.shared sec)
        (.copying { sec with done := sec.done + 1 }), c.winner⟩ where
  aligned := h.aligned
  count := by
    have hupdate := threadCount_update Helper.participating c.thread i
      (.copying { sec with done := sec.done + 1 })
    rw [hi] at hupdate
    exact h.count.trans (Nat.add_right_cancel hupdate).symm
  count_le := h.count_le
  header := h.header
  source := h.source
  sections := h.sections
  helper := helperOk_after _ h.helper trivial
  copied x hlo hhi := by
    change (Shared.copyByte bytes c.shared sec).dest x = bytes x ∨ _
    rw [copyByte_dest]
    by_cases hx : x = sectionBase sec.remaining + sec.done
    · exact .inl (if_pos hx)
    rw [if_neg hx]
    rcases h.copied x hlo hhi with heq | hwin | hj
    · exact .inl heq
    · exact .inr (.inl hwin)
    · refine .inr (.inr (pending_after c i _ (fun hmem => ?_) hj))
      rw [hi] at hmem
      exact pending_done hmem hx

theorem SourceIs.isBeingCopied {source : MutableHeaderFields .uncompressed} {w : Winner}
    (h : SourceIs destination source w) (hdest : tagBits destination = 0)
    (hhint : (ForwardedHeader.mk objectPtr source).isBeingCopied = false) : w.Committed := by
  have hforwarded (heq : source = forwardedFields .uncompressed destination 6) : False := by
    rw [heq, ForwardedHeader.isBeingCopied_forwardedFields objectPtr hdest] at hhint
    exact Bool.false_ne_true hhint.symm
  cases w with
  | committed changes => trivial
  | clearingHint changes source => trivial
  | finished changes => trivial
  | _ => exact (hforwarded h).elim

theorem Inv.helper_step (h : Inv bytes preserved destination size r k c)
    (hpreserved : preserved &&& beingCopiedTag = 0) (hdest : tagBits destination = 0)
    {s' : Shared} (hstep : HelperStep bytes objectPtr c.shared (c.thread i) s' p') :
    ∃ r' k', Inv bytes preserved destination size r' k' ⟨c.toThreads.after i s' p', c.winner⟩ := by
  have hi := h.helper i
  have hpos := h.participating_pos i
  have hidle := h.idle i p'
  have hwin := h.helper_win i
  generalize hp : c.thread i = p at hstep hi hpos hidle hwin
  cases hstep with
  | construct => exact ⟨r, k, hidle rfl rfl (h.source.isBeingCopied hdest)⟩
  | @copyOrWait g =>
    refine ⟨r, k, ?_⟩
    cases hg : g.isBeingCopied with
    | true =>
      rw [hg] at hidle
      exact hidle rfl rfl trivial
    | false =>
      rw [hg] at hidle
      exact hidle rfl rfl (hi hg)
  | @load q => exact ⟨r, k, hidle rfl rfl h.header.committed_of_tag⟩
  | @attempt q old =>
    have hresult : AttemptResult r k c.shared c.winner q (Helper.attempt c.shared q old) :=
      attempt_result h.aligned h.count_le h.header hpreserved hpos hi
    generalize Helper.attempt c.shared q old = result at hresult hidle ⊢
    cases hresult with
    | again => exact ⟨r, k, hidle rfl rfl trivial⟩
    | fullyCopied hw hq => exact ⟨r, k, hidle hq.symm rfl hw⟩
    | leave hr hk hq =>
      subst hr
      exact ⟨0, k - 1, h.leave (by rw [hp]; exact hq) (by rw [hp]; rfl)⟩
    | win hr k' hk' hmax => exact ⟨_, k', hwin hr rfl hk' hmax⟩
  | @copyByte sec _ => exact ⟨r, k, h.helper_copyByte hp⟩
  | @endSection sec hdone =>
    refine ⟨r, k, hidle rfl (Set.Ico_eq_empty ?_) trivial⟩
    omega

theorem Inv.step (h : Inv bytes preserved destination size r k c)
    (hpreserved : preserved &&& beingCopiedTag = 0) (hdest : tagBits destination = 0)
    {c' : ObjectCopy ι} (hstep : Step bytes preserved objectPtr c c') :
    ∃ r' k', Inv bytes preserved destination size r' k' c' := by
  cases hstep with
  | winner hwinner => exact h.winner_step hpreserved hwinner
  | helper i hhelper => exact h.helper_step hpreserved hdest hhelper

/-- The configurations that the threads can get to. -/
def Reaches (bytes : ℕ → BitVec 8) (preserved objectPtr : BitVec 64) :
    ObjectCopy ι → ObjectCopy ι → Prop :=
  Relation.ReflTransGen (Step bytes preserved objectPtr)

theorem Reaches.inv (hsize : 8 ≤ size.toNat) (hpreserved : preserved &&& beingCopiedTag = 0)
    (hdest : tagBits destination = 0) {dest : ℕ → BitVec 8}
    (hc : Reaches bytes preserved objectPtr (.start size destination dest) c) :
    ∃ r k, Inv bytes preserved destination size r k c := by
  induction hc with
  | refl => exact ⟨_, _, Inv.start hsize dest⟩
  | tail _ hstep ih =>
    obtain ⟨r, k, h⟩ := ih
    exact h.step hpreserved hdest hstep

/-- A helper that is counted out copies nothing. -/
theorem pending_of_not_participating {p : Helper} (hp : p.participating = false) :
    p.pending = ∅ := by
  cases p with
  | copying sec => cases hp
  | _ => rfl

theorem Winner.Returned.pending {w : Winner} (hw : w.Returned) : w.pending = ∅ := by
  cases w with
  | copying sec => exact hw.elim
  | _ => rfl

/-- The threads copy an object completely and no byte of it twice, and no helper returns
before the header of the copy is the preserved one. -/
theorem complete_and_exclusive (bytes : ℕ → BitVec 8) (objectPtr : BitVec 64)
    (hsize : 8 ≤ size.toNat) (hpreserved : preserved &&& beingCopiedTag = 0)
    (hdest : tagBits destination = 0) (dest : ℕ → BitVec 8)
    (hc : Reaches bytes preserved objectPtr (.start size destination dest) c) :
    c.shared.sections.Pairwise Extent.Apart ∧
    bytesOf c.shared.sections ⊆ Set.Ico 8 size.toNat ∧
    (¬ c.winner.Committed →
      (outstandingCopies c.shared.slot).toNat = threadCount Helper.participating c.thread ∧
        outstandingCopies c.shared.slot ≤ maxOutstandingCopies) ∧
    (c.winner.Returned →
      bytesOf c.shared.sections = Set.Ico 8 size.toNat ∧
        (∀ x ∈ Set.Ico 8 size.toNat, c.shared.dest x = bytes x) ∧
        ∀ i, (c.thread i).pending = ∅ ∧ (c.thread i).participating = false) ∧
    (∀ i, c.thread i = .returned → c.winner.Committed) ∧
    (c.winner.Committed → (∀ f ∈ c.winner.changes, f.Permitted) ∧
      c.shared.slot = FlagChange.applyAll c.winner.changes preserved) := by
  obtain ⟨r, k, h⟩ := hc.inv hsize hpreserved hdest
  have hbytes := h.sections.bytesOf_eq
  refine ⟨h.sections.pairwise_apart, ?_, fun hw => ?_, fun hw => ?_, fun i hi => ?_, fun hw => ?_⟩
  · rw [hbytes]
    exact Set.Ico_subset_Ico_left (Nat.le_add_right ..)
  · obtain ⟨-, hk⟩ := h.header.remaining h.aligned h.count_le hw
    rw [hk]
    exact ⟨h.count, h.count_le⟩
  · obtain ⟨rfl, rfl⟩ := h.header.of_returned hw
    have hnone : ∀ i, (c.thread i).participating = false := threadCount_eq_zero.1 h.count.symm
    refine ⟨hbytes, fun x hx => ?_, fun i => ⟨pending_of_not_participating (hnone i), hnone i⟩⟩
    rcases h.copied x hx.1 hx.2 with heq | hwin | ⟨i, hi⟩
    · exact heq
    · rw [hw.pending] at hwin
      exact hwin.elim
    · rw [pending_of_not_participating (hnone i)] at hi
      exact hi.elim
  · have hok := h.helper i
    rw [hi] at hok
    exact hok
  · exact (h.header.of_committed hw).2

/-- An object that is only its header, whose age changes while a helper looks on. -/
theorem complete_and_exclusive_one_slot :
    ∃ c : ObjectCopy (Fin 1), c.thread 0 = .returned ∧ c.shared.slot = 0x4030 ∧
      c.winner.Committed ∧ bytesOf c.shared.sections = Set.Ico 8 (8#64).toNat := by
  let s (slot : BitVec 64) : Shared :=
    ⟨slot, forwardedFields .uncompressed 0x2000 6, fun _ => 1, [⟨8, 0⟩]⟩
  let state (slot : BitVec 64) (p : Helper) (w : Winner) : ObjectCopy (Fin 1) :=
    ⟨⟨s slot, fun _ => p⟩, w⟩
  have helperStep {slot : BitVec 64} {p p' : Helper} {w : Winner}
      (h : HelperStep (fun _ => 0) 0x1000 (s slot) p (s slot) p') :
      Step (fun _ => 0) 0x4010 0x1000 (state slot p w) (state slot p' w) := by
    have hafter : state slot p' w = ⟨(state slot p w).toThreads.after 0 (s slot) p', w⟩ := by
      have hthread : (fun _ => p') = Function.update (fun _ : Fin 1 => p) 0 p' := by
        funext i
        rw [Subsingleton.elim i 0, Function.update_self]
      simp only [state, Threads.after, ← hthread]
    rw [hafter]
    exact .helper 0 h
  have winnerStep {slot slot' : BitVec 64} {p : Helper} {w w' : Winner}
      (h : WinnerStep (fun _ => 0) 0x4010 (s slot) w (s slot') w') :
      Step (fun _ => 0) 0x4010 0x1000 (state slot p w) (state slot' p w') := .winner h
  have hwinner : WinnerStep (fun _ => 0) 0x4010 (s 4) (.loaded 4) (s 4) .copied := .attempt
  have hage : WinnerStep (fun _ => 0) 0x4010 (s 0x14) (.fixing [])
      (s 0x34) (.fixing [⟨0xf0, 0x30⟩]) := by
    rw [show (0x34 : BitVec 64) = FlagChange.apply ⟨0xf0, 0x30⟩ 0x14 by decide]
    exact .setObjectFlags ⟨0xf0, 0x30⟩ (by decide)
  have hstore : WinnerStep (fun _ => 0) 0x4010 (s 0x34) (.committing [⟨0xf0, 0x30⟩] 0x34)
      (s 0x4030) (.committed [⟨0xf0, 0x30⟩]) := by
    rw [show (0x4030 : BitVec 64) = commitFixup 0x4010 0x34 by decide]
    exact .storeSlot
  have hhelper : HelperStep (fun _ => 0) 0x1000 (s 0x4030) (.loaded false 0x4030) (s 0x4030)
      .returned := .attempt
  have hcheck : HelperStep (fun _ => 0) 0x1000 (s 0x4030)
      (.constructed ⟨0x1000, forwardedFields .uncompressed 0x2000 6⟩) (s 0x4030)
      (.looping false) := .copyOrWait
  have hrun : Reaches (fun _ => 0) 0x4010 0x1000 (.start 8 0x2000 fun _ => 1)
      (state 0x4030 .returned (.committed [⟨0xf0, 0x30⟩])) :=
    ((((((((((Relation.ReflTransGen.refl.tail (winnerStep (.endSection (by decide)))).tail
      (winnerStep .load)).tail (winnerStep hwinner)).tail (winnerStep .commenceFixup)).tail
      (winnerStep hage)).tail (winnerStep .loadSlot)).tail (winnerStep hstore)).tail
      (helperStep .construct)).tail (helperStep hcheck)).tail (helperStep .load)).tail
      (helperStep hhelper)
  have hcopy := complete_and_exclusive (fun _ => 0) 0x1000 (by decide) (by decide) (by decide) _ hrun
  exact ⟨_, rfl, rfl, hcopy.2.2.2.2.1 0 rfl, (hcopy.2.2.2.1 trivial).1⟩

end Steps

end OMR.GC.CooperativeCopy
