import OMR.GC.ReaderWriterLock

/-!
# Safety of the lightweight reader/writer lock

What a step can do to the word is said once, as `Effect`. The word then counts the threads
by their standing in every configuration that is reached.
-/

namespace OMR.GC.ReaderWriterLock

open OMR.Lib

/-- What a step does to the word and to the standing of the thread that takes it. -/
inductive Effect : BitVec 32 → Standing → BitVec 32 → Standing → Prop
  | none (status : BitVec 32) (standing : Standing) : Effect status standing status standing
  | enterRead {status status' : BitVec 32} (hlow : status.toNat < 65536)
      (hodd : status.toNat % 2 = 1) (h : status'.toNat = status.toNat + 2) :
    Effect status .absent status' .reader
  | exitRead (status : BitVec 32) :
    Effect status .reader (status - incrementalBaseReaders) .absent
  | enterWrite : Effect readerMode .absent writerMode .writer
  | registerWriter (status : BitVec 32) :
    Effect status .absent (status + incrementalBaseWaitingWriters) .waitingWriter
  | admitWriter {status status' : BitVec 32} (hone : status.toNat % 65536 = 1)
      (h : 65536 ≤ status.toNat → status'.toNat + 65537 = status.toNat) :
    Effect status .waitingWriter status' .writer
  | exitWrite (status : BitVec 32) : Effect status .writer (status ||| readerMode) .absent

/-- What the locals of a call say, and that its thread was allowed to make the call. -/
def Phase.Sound (mayRead mayWrite : Prop) : Phase → Prop
  | .outside => True
  | .enterRead | .reading | .exitRead => mayRead
  | .enterReadExchange oldValue newValue =>
    mayRead ∧ oldValue.toNat < 65536 ∧ oldValue.toNat % 2 = 1 ∧
      newValue = oldValue + incrementalBaseReaders
  | .exitReadExchange oldValue newValue =>
    mayRead ∧ newValue = oldValue - incrementalBaseReaders
  | .enterWrite | .registerWriter _ | .awaitWrite _ | .writing | .exitWrite => mayWrite
  | .exitWriteExchange oldValue newValue => mayWrite ∧ newValue = oldValue ||| readerMode
  | .assertionFailed => False

section Local

variable {mayRead mayWrite : Prop} {phase : Phase}

theorem Phase.Sound.mayRead_of_reader (h : phase.Sound mayRead mayWrite)
    (hreader : phase.standing = .reader) : mayRead := by
  cases phase <;> first | exact h | exact h.1 | cases hreader

theorem Phase.Sound.mayWrite_of_waiting (h : phase.Sound mayRead mayWrite)
    (hwaiting : phase.standing = .waitingWriter) : mayWrite := by
  cases phase <;> first | exact h | cases hwaiting

/-- The value an exchange of `enterRead` expects: no waiting writer and reader mode. -/
theorem toNat_expectedByReader (status : BitVec 32) :
    ((status &&& maskWaitingWriters) ||| readerMode).toNat =
      status.toNat % 65536 / 2 * 2 + 1 := by
  rw [toNat_or_readerMode, toNat_and_maskWaitingWriters]

/-- The value an exchange of a waiting writer expects: no reader and reader mode. -/
theorem toNat_expectedByWriter (retValue : BitVec 32) :
    ((retValue &&& maskReaders) ||| readerMode).toNat = retValue.toNat / 65536 * 65536 + 1 := by
  rw [toNat_or_readerMode, toNat_and_maskReaders]
  omega

theorem toNat_add_incrementalBaseReaders (status : BitVec 32) (h : status.toNat < 65536) :
    (status + incrementalBaseReaders).toNat = status.toNat + 2 := by
  rw [BitVec.toNat_add, show incrementalBaseReaders.toNat = 2 from rfl]
  omega

/-- The assertion of `enterRead` holds while another reader still fits the field. -/
theorem prepareRead_sound {status : BitVec 32} (hread : mayRead)
    (hroom : status.toNat % 65536 / 2 < 32766) :
    (Phase.prepareRead status).Sound mayRead mayWrite := by
  have hold := toNat_expectedByReader status
  have hnew := toNat_add_incrementalBaseReaders
    ((status &&& maskWaitingWriters) ||| readerMode) (by omega)
  have hfits : ¬ maskWaitingWriters ≤
      ((status &&& maskWaitingWriters) ||| readerMode) + incrementalBaseReaders &&&
        maskWaitingWriters := by
    rw [BitVec.le_def, toNat_and_maskWaitingWriters, hnew, hold,
      show maskWaitingWriters.toNat = 65535 from rfl]
    omega
  simp only [Phase.prepareRead, if_neg hfits]
  exact ⟨hread, by omega, by omega, rfl⟩

end Local

section Steps

variable {ι : Type*} {readers writers : Finset ι} {i : ι}
  {status status' : BitVec 32} {phase phase' : Phase}

theorem Step.effect (h : Step readers writers i status phase status' phase')
    (hsound : phase.Sound (i ∈ readers) (i ∈ writers)) :
    Effect status phase.standing status' phase'.standing := by
  cases h with
  | callEnterRead | callExitRead | callEnterWrite | callExitWrite => exact .none _ _
  | access =>
    cases phase with
    | outside | reading | exitRead | writing | exitWrite | assertionFailed => exact .none _ _
    | enterRead =>
      simp only [Phase.advance, Phase.prepareRead]
      split <;> exact .none _ _
    | enterReadExchange oldValue newValue =>
      obtain ⟨-, hlow, hodd, rfl⟩ := hsound
      simp only [Phase.advance, lockCompareExchange]
      by_cases heq : status = oldValue
      · subst heq
        rw [if_pos rfl, if_pos rfl]
        exact .enterRead hlow hodd (toNat_add_incrementalBaseReaders _ hlow)
      · rw [if_neg heq, if_neg (Ne.symm heq)]
        exact .none _ _
    | exitReadExchange oldValue newValue =>
      obtain ⟨-, rfl⟩ := hsound
      simp only [Phase.advance, lockCompareExchange]
      by_cases heq : status = oldValue
      · subst heq
        rw [if_pos rfl, if_pos rfl]
        exact .exitRead _
      · rw [if_neg heq, if_neg (Ne.symm heq)]
        exact .none _ _
    | enterWrite =>
      simp only [Phase.advance, lockCompareExchange]
      by_cases heq : status = readerMode
      · subst heq
        rw [if_pos rfl, if_neg (by simp)]
        exact .enterWrite
      · rw [if_neg heq, if_pos (Ne.symm heq)]
        exact .none _ _
    | registerWriter retValue =>
      simp only [Phase.advance, lockCompareExchange]
      by_cases heq : status = retValue
      · subst heq
        rw [if_pos rfl, if_neg (by simp)]
        exact .registerWriter _
      · rw [if_neg heq, if_pos (Ne.symm heq)]
        exact .none _ _
    | awaitWrite retValue =>
      simp only [Phase.advance, lockCompareExchange]
      have hold := toNat_expectedByWriter retValue
      by_cases heq : status = (retValue &&& maskReaders) ||| readerMode
      · rw [← heq] at hold ⊢
        rw [if_pos rfl, if_pos rfl]
        refine .admitWriter (by omega) fun hpos => ?_
        have hlt := status.isLt
        rw [toNat_and_maskMode, BitVec.toNat_sub,
          show incrementalBaseWaitingWriters.toNat = 65536 from rfl]
        omega
      · rw [if_neg heq, if_neg (Ne.symm heq)]
        exact .none _ _
    | exitWriteExchange oldValue newValue =>
      obtain ⟨-, rfl⟩ := hsound
      simp only [Phase.advance, lockCompareExchange]
      by_cases heq : status = oldValue
      · subst heq
        rw [if_pos rfl, if_neg (by simp)]
        exact .exitWrite _
      · rw [if_neg heq, if_pos (Ne.symm heq)]
        exact .none _ _

/-- Only the assertion asks something of the word. -/
theorem Step.sound (h : Step readers writers i status phase status' phase')
    (hsound : phase.Sound (i ∈ readers) (i ∈ writers))
    (hroom : i ∈ readers → phase.standing = .absent → status.toNat % 65536 / 2 < 32766) :
    phase'.Sound (i ∈ readers) (i ∈ writers) := by
  cases h with
  | callEnterRead hi => exact hi
  | callEnterWrite hi => exact hi
  | callExitRead | callExitWrite => exact hsound
  | access =>
    cases phase with
    | outside | reading | writing | assertionFailed => exact hsound
    | enterRead => exact prepareRead_sound hsound (hroom hsound rfl)
    | exitRead => exact ⟨hsound, rfl⟩
    | exitWrite => exact ⟨hsound, rfl⟩
    | enterReadExchange oldValue newValue | exitReadExchange oldValue newValue
      | exitWriteExchange oldValue newValue =>
      simp only [Phase.advance]
      split
      · first | exact hsound.1 | trivial
      · first | exact hsound.1 | trivial
    | enterWrite | registerWriter retValue | awaitWrite retValue =>
      simp only [Phase.advance]
      split <;> exact hsound

end Steps

section Counts

variable {status status' : BitVec 32} {standing standing' : Standing} {n n' : Standing → ℕ}

/-- The word says how many threads have each standing, and writers are alone. -/
structure Counted (status : BitVec 32) (n : Standing → ℕ) : Prop where
  word : status.toNat + n .writer = 1 + 2 * n .reader + 65536 * n .waitingWriter
  writer_le_one : n .writer ≤ 1
  exclusive : n .writer = 0 ∨ n .reader = 0

theorem Counted.fields_eq (h : Counted status n) (hreaders : n .reader < 32768) :
    fields status = ⟨decide (0 < n .writer), n .reader, n .waitingWriter⟩ := by
  refine fields_of_toNat _ ?_ hreaders
  have hword := h.word
  have hone := h.writer_le_one
  by_cases hpos : 0 < n .writer
  · simp only [hpos, decide_true, Bool.not_true, Bool.toNat_false]
    omega
  · simp only [hpos, decide_false, Bool.not_false, Bool.toNat_true]
    omega

/-- The counts move as the thread's standing does, and so does the word. -/
theorem Effect.counted (heffect : Effect status standing status' standing')
    (hmove : ∀ k, n' k + (decide (standing = k)).toNat = n k + (decide (standing' = k)).toNat)
    (h : Counted status n) (hreaders : n' .reader < 32767) (hwaiting : n' .waitingWriter < 65535) :
    Counted status' n' := by
  obtain ⟨hword, hone, hexcl⟩ := h
  have hwriter := hmove .writer
  have hreader := hmove .reader
  have hwaits := hmove .waitingWriter
  have hlt := status.isLt
  cases heffect with
  | none =>
    have hsame (k : Standing) : n' k = n k := Nat.add_right_cancel (hmove k)
    rw [← hsame, ← hsame, ← hsame] at hword
    rw [← hsame] at hone hexcl
    rw [← hsame] at hexcl
    exact ⟨hword, hone, hexcl⟩
  | enterRead hlow hodd hs =>
    simp at hwriter hreader hwaits
    constructor <;> omega
  | exitRead =>
    simp at hwriter hreader hwaits
    have hs : (status - incrementalBaseReaders).toNat + 2 = status.toNat := by
      rw [BitVec.toNat_sub, show incrementalBaseReaders.toNat = 2 from rfl]
      omega
    constructor <;> omega
  | enterWrite =>
    simp [show readerMode.toNat = 1 from rfl] at hwriter hreader hwaits hword
    have hs : writerMode.toNat = 0 := rfl
    constructor <;> omega
  | registerWriter =>
    simp at hwriter hreader hwaits
    have hs : (status + incrementalBaseWaitingWriters).toNat = status.toNat + 65536 := by
      rw [BitVec.toNat_add, show incrementalBaseWaitingWriters.toNat = 65536 from rfl]
      omega
    constructor <;> omega
  | admitWriter hlow hs =>
    simp at hwriter hreader hwaits
    have hs := hs (by omega)
    constructor <;> omega
  | exitWrite =>
    simp at hwriter hreader hwaits
    have hs := toNat_or_readerMode status
    constructor <;> omega

/-- Only the fields that the call is about change, and none carries into another. -/
theorem Effect.change (heffect : Effect status standing status' standing')
    (hmove : ∀ k, n' k + (decide (standing = k)).toNat = n k + (decide (standing' = k)).toNat)
    (h : Counted status n) (hreaders : n' .reader < 32767) (hwaiting : n' .waitingWriter < 65535) :
    Fields.Change (fields status) (fields status') := by
  have h' := heffect.counted hmove h hreaders hwaiting
  have hwriter := hmove .writer
  have hreader := hmove .reader
  have hwaits := hmove .waitingWriter
  have hmono : n .reader < 32768 := by
    have hle := Bool.toNat_le (decide (standing = .reader))
    omega
  have hword := h.word
  have hone := h.writer_le_one
  have hexcl := h.exclusive
  rw [h.fields_eq hmono, h'.fields_eq (by omega)]
  cases heffect with
  | none =>
    rw [Nat.add_right_cancel hwriter, Nat.add_right_cancel hreader, Nat.add_right_cancel hwaits]
    exact .none _
  | enterRead hlow hodd =>
    simp at hwriter hreader hwaits
    have h0 : n .writer = 0 := by omega
    have hw0 : n .waitingWriter = 0 := by omega
    rw [hwriter, hreader, hwaits, h0, hw0]
    exact .enterRead _
  | exitRead =>
    simp at hwriter hreader hwaits
    have h0 : n .writer = 0 := by omega
    rw [hwriter, ← hreader, hwaits, h0]
    exact .exitRead _ _
  | enterWrite =>
    simp [show readerMode.toNat = 1 from rfl] at hwriter hreader hwaits hword
    have h0 : n .writer = 0 := by omega
    have hr0 : n .reader = 0 := by omega
    have hw0 : n .waitingWriter = 0 := by omega
    rw [hwriter, hreader, hwaits, h0, hr0, hw0]
    exact .enterWrite
  | registerWriter =>
    simp at hwriter hreader hwaits
    rw [hwriter, hreader, hwaits]
    exact .registerWriter _ _ _
  | admitWriter hlow =>
    simp at hwriter hreader hwaits
    have h0 : n .writer = 0 := by omega
    have hr0 : n .reader = 0 := by omega
    rw [hwriter, hreader, ← hwaits, h0, hr0]
    exact .admitWriter _
  | exitWrite =>
    simp at hwriter hreader hwaits
    have h0 : n' .writer = 0 := by omega
    have hr0 : n .reader = 0 := by omega
    rw [← hwriter, hreader, hwaits, h0, hr0]
    exact .exitWrite _

/-- A reader is let in by a word that counts no waiting writer. -/
theorem Effect.waitingWriter_eq_zero (heffect : Effect status standing status' standing')
    (h : Counted status n) (hbefore : standing ≠ .reader) (hafter : standing' = .reader) :
    n .waitingWriter = 0 := by
  cases heffect with
  | none => exact absurd hafter hbefore
  | enterRead hlow =>
    have hword := h.word
    have hone := h.writer_le_one
    omega
  | exitRead | enterWrite | registerWriter | admitWriter | exitWrite => cases hafter

end Counts

section Configurations

variable {ι : Type*} [Fintype ι] {readers writers : Finset ι}
  {c : Threads ι (BitVec 32) Phase}

/-- The word counts the threads by their standing, and each keeps to its locals. -/
structure Invariant (readers writers : Finset ι) (c : Threads ι (BitVec 32) Phase) : Prop where
  counted : Counted c.shared fun standing => count standing c
  sound : ∀ i, (c.thread i).Sound (i ∈ readers) (i ∈ writers)

theorem count_reader_le (h : ∀ i, (c.thread i).Sound (i ∈ readers) (i ∈ writers)) :
    count .reader c ≤ readers.card :=
  threadCount_le_card fun i hi => (h i).mayRead_of_reader (of_decide_eq_true hi)

theorem count_waitingWriter_le (h : ∀ i, (c.thread i).Sound (i ∈ readers) (i ∈ writers)) :
    count .waitingWriter c ≤ writers.card :=
  threadCount_le_card fun i hi => (h i).mayWrite_of_waiting (of_decide_eq_true hi)

/-- A thread that may read and is outside leaves room for one more reader. -/
theorem count_reader_lt {i : ι} (h : ∀ i, (c.thread i).Sound (i ∈ readers) (i ∈ writers))
    (hi : i ∈ readers) (habsent : (c.thread i).standing = .absent) :
    count .reader c < readers.card :=
  threadCount_lt_card (fun j hj => (h j).mayRead_of_reader (of_decide_eq_true hj)) hi
    (by rw [habsent]; rfl)

theorem count_pos {i : ι} {standing : Standing} (h : (c.thread i).standing = standing) :
    0 < count standing c :=
  threadCount_pos (decide_eq_true h)

theorem count_start (standing : Standing) (h : standing ≠ .absent) :
    count standing (start : Threads ι (BitVec 32) Phase) = 0 :=
  threadCount_eq_zero.2 fun _ => decide_eq_false (Ne.symm h)

theorem invariant_start :
    Invariant readers writers (start : Threads ι (BitVec 32) Phase) where
  counted := by
    refine ⟨?_, ?_, .inl (count_start _ (by decide))⟩
    · rw [count_start _ (by decide), count_start _ (by decide), count_start _ (by decide)]
      rfl
    · rw [count_start _ (by decide)]
      exact Nat.zero_le _
  sound _ := trivial

variable [DecidableEq ι]

theorem count_after (standing : Standing) (c : Threads ι (BitVec 32) Phase) (i : ι)
    (status' : BitVec 32) (phase' : Phase) :
    count standing (c.after i status' phase') +
        (decide ((c.thread i).standing = standing)).toNat =
      count standing c + (decide (phase'.standing = standing)).toNat :=
  threadCount_update ..

/-- Two threads of one standing are counted twice. -/
theorem two_le_count {i j : ι} {standing : Standing} (hne : j ≠ i)
    (hi : (c.thread i).standing = standing) (hj : (c.thread j).standing = standing) :
    2 ≤ count standing c := by
  have hpair : ({i, j} : Finset ι) ⊆
      Finset.univ.filter fun k => decide ((c.thread k).standing = standing) = true := by
    intro k hk
    rw [Finset.mem_insert, Finset.mem_singleton] at hk
    obtain rfl | rfl := hk <;> simp [hi, hj]
  have hcard := Finset.card_le_card hpair
  rwa [Finset.card_pair (Ne.symm hne)] at hcard

section Run

variable {i : ι} {status' : BitVec 32} {phase' : Phase}

theorem Invariant.sound_after (h : Invariant readers writers c) (hreaders : readers.card < 32767)
    (hstep : Step readers writers i c.shared (c.thread i) status' phase') (j : ι) :
    ((c.after i status' phase').thread j).Sound (j ∈ readers) (j ∈ writers) := by
  by_cases hj : j = i
  · subst hj
    rw [Threads.after_thread_self]
    refine hstep.sound (h.sound j) fun hread habsent => ?_
    have hlt := count_reader_lt h.sound hread habsent
    have hword := h.counted.word
    have hone := h.counted.writer_le_one
    omega
  · rw [Threads.after_thread_of_ne _ hj]
    exact h.sound j

theorem Invariant.step (h : Invariant readers writers c) (hreaders : readers.card < 32767)
    (hwriters : writers.card < 65535)
    (hstep : Step readers writers i c.shared (c.thread i) status' phase') :
    Invariant readers writers (c.after i status' phase') where
  counted := (hstep.effect (h.sound i)).counted (fun k => count_after k c i status' phase')
    h.counted
    ((count_reader_le (h.sound_after hreaders hstep)).trans_lt hreaders)
    ((count_waitingWriter_le (h.sound_after hreaders hstep)).trans_lt hwriters)
  sound := h.sound_after hreaders hstep

theorem Invariant.change (h : Invariant readers writers c) (hreaders : readers.card < 32767)
    (hwriters : writers.card < 65535)
    (hstep : Step readers writers i c.shared (c.thread i) status' phase') :
    Fields.Change (fields c.shared) (fields status') :=
  (hstep.effect (h.sound i)).change (fun k => count_after k c i status' phase') h.counted
    ((count_reader_le (h.sound_after hreaders hstep)).trans_lt hreaders)
    ((count_waitingWriter_le (h.sound_after hreaders hstep)).trans_lt hwriters)

theorem Invariant.reaches (hreaders : readers.card < 32767) (hwriters : writers.card < 65535)
    (h : Threads.Reaches (Step readers writers) start c) : Invariant readers writers c :=
  h.invariant (fun _ _ _ _ hinv hstep => hinv.step hreaders hwriters hstep) invariant_start

/-- No other thread is inside with a writer. -/
theorem Invariant.alone (h : Invariant readers writers c) {j : ι}
    (hi : (c.thread i).standing = .writer) (hj : j ≠ i) :
    (c.thread j).standing ≠ .writer ∧ (c.thread j).standing ≠ .reader := by
  have hpos := count_pos hi
  have hone := h.counted.writer_le_one
  refine ⟨fun hwriter => ?_, fun hreader => ?_⟩
  · have htwo := two_le_count hj hi hwriter
    omega
  · have hread := count_pos hreader
    have hexcl := h.counted.exclusive
    omega

/-- Whatever the interleaving: the word counts the readers inside and the waiting writers
and says whether a writer is inside, a writer is inside alone, no assertion fails, a step
changes only its own fields, and no reader is let in while a writer waits. -/
theorem lockWord_counts_and_excludes (hreaders : readers.card < 32767)
    (hwriters : writers.card < 65535) (h : Threads.Reaches (Step readers writers) start c) :
    fields c.shared =
        ⟨decide (0 < count .writer c), count .reader c, count .waitingWriter c⟩ ∧
      (∀ i j, (c.thread i).standing = .writer → j ≠ i →
        (c.thread j).standing ≠ .writer ∧ (c.thread j).standing ≠ .reader) ∧
      (∀ i, c.thread i ≠ .assertionFailed) ∧
      (∀ i status' phase', Step readers writers i c.shared (c.thread i) status' phase' →
        Fields.Change (fields c.shared) (fields status')) ∧
      (∀ i status' phase', Step readers writers i c.shared (c.thread i) status' phase' →
        (c.thread i).standing ≠ .reader → phase'.standing = .reader →
          count .waitingWriter c = 0) := by
  have hinv := Invariant.reaches hreaders hwriters h
  refine ⟨hinv.counted.fields_eq ?_, fun i j hi hj => hinv.alone hi hj, fun i hi => ?_,
    fun i _ _ hstep => hinv.change hreaders hwriters hstep, fun i _ _ hstep hbefore hafter => ?_⟩
  · have hle := count_reader_le hinv.sound
    omega
  · have hsound := hinv.sound i
    rw [hi] at hsound
    exact hsound
  · exact (hstep.effect (hinv.sound i)).waitingWriter_eq_zero hinv.counted hbefore hafter

end Run

end Configurations

/-- One thread has gone in to read and another has registered to write. -/
theorem lockWord_counts_and_excludes_readerAndWaiting :
    ∃ c : Threads (Fin 2) (BitVec 32) Phase,
      Threads.Reaches (Step {0} {1}) start c ∧ fields c.shared = ⟨false, 1, 1⟩ ∧
        c.thread 0 = .reading ∧ c.thread 1 = .awaitWrite 0x10003#32 := by
  have h1 : Threads.Reaches (Step {0} {1}) (start : Threads (Fin 2) (BitVec 32) Phase) _ :=
    Threads.Reaches.one 0 (.callEnterRead (Finset.mem_singleton_self 0))
  have h2 := h1.tail (.of 0 (.access))
  have h3 := h2.tail (.of 0 (.access))
  have h4 := h3.tail (.of 1 (.callEnterWrite (Finset.mem_singleton_self 1)))
  have h5 := h4.tail (.of 1 (.access))
  have h6 := h5.tail (.of 1 (.access))
  refine ⟨_, h6, ?_, by decide, by decide⟩
  rw [(lockWord_counts_and_excludes (by decide) (by decide) h6).1]
  decide

end OMR.GC.ReaderWriterLock
