import OMR.Lib.Interleaving

/-!
# The lightweight reader/writer lock

The lock of the build with its own lock word: bit 0 says that no writer is inside, bits 1
to 15 count the readers inside and bits 16 to 31 the writers that wait. Every change of the
word is one compare-and-exchange.
-/

namespace OMR.GC.ReaderWriterLock

open OMR.Lib

/-- `LWRW_READER_MODE`. -/
def readerMode : BitVec 32 := 1#32

/-- `LWRW_WRITER_MODE`. -/
def writerMode : BitVec 32 := 0#32

/-- `LWRW_INCREMENTAL_BASE_READERS`. -/
def incrementalBaseReaders : BitVec 32 := 2#32

/-- `LWRW_INCREMENTAL_BASE_WAITINGWRITERS`. -/
def incrementalBaseWaitingWriters : BitVec 32 := 1#32 <<< 16

/-- `LWRW_MASK_WAITINGWRITERS`, which keeps all but the waiting writers. -/
def maskWaitingWriters : BitVec 32 := incrementalBaseWaitingWriters - 1#32

/-- `LWRW_MASK_READERS`, which keeps the waiting writers only. -/
def maskReaders : BitVec 32 := maskWaitingWriters ^^^ 0xffffffff#32

/-- `LWRW_MASK_MODE`, which keeps all but the mode. -/
def maskMode : BitVec 32 := readerMode ^^^ 0xffffffff#32

/-- Where a thread is: between calls, at an atomic access of one, or past an assertion
that failed. The locals of the call that are still to be used stand with it. -/
inductive Phase where
  | outside
  | enterRead
  | enterReadExchange (oldValue newValue : BitVec 32)
  | reading
  | exitRead
  | exitReadExchange (oldValue newValue : BitVec 32)
  | enterWrite
  | registerWriter (retValue : BitVec 32)
  | awaitWrite (retValue : BitVec 32)
  | writing
  | exitWrite
  | exitWriteExchange (oldValue newValue : BitVec 32)
  | assertionFailed
  deriving DecidableEq

/-- `lockCompareExchangeU32`: what the word is afterwards. The value it returns is the word
before. -/
def lockCompareExchange (status oldValue newValue : BitVec 32) : BitVec 32 :=
  if status = oldValue then newValue else status

namespace Phase

/-- `enterRead` up to its exchange. -/
def prepareRead (status : BitVec 32) : Phase :=
  let oldValue := (status &&& maskWaitingWriters) ||| readerMode
  let newValue := oldValue + incrementalBaseReaders
  if maskWaitingWriters ≤ newValue &&& maskWaitingWriters then .assertionFailed
  else .enterReadExchange oldValue newValue

/-- The word and the thread after the next atomic access of the call it is in. -/
def advance (status : BitVec 32) : Phase → BitVec 32 × Phase
  | enterRead => (status, prepareRead status)
  | enterReadExchange oldValue newValue =>
    -- After a failure the two branches differ in how long they wait only.
    (lockCompareExchange status oldValue newValue,
      if oldValue = status then reading else enterRead)
  | exitRead => (status, exitReadExchange status (status - incrementalBaseReaders))
  | exitReadExchange oldValue newValue =>
    (lockCompareExchange status oldValue newValue,
      if oldValue = status then outside else exitRead)
  | enterWrite =>
    (lockCompareExchange status readerMode writerMode,
      if readerMode ≠ status then registerWriter status else writing)
  | registerWriter retValue =>
    let oldValue := retValue
    let newValue := oldValue + incrementalBaseWaitingWriters
    (lockCompareExchange status oldValue newValue,
      if oldValue ≠ status then registerWriter status else awaitWrite newValue)
  | awaitWrite retValue =>
    let oldValue := (retValue &&& maskReaders) ||| readerMode
    let newValue := (oldValue - incrementalBaseWaitingWriters) &&& maskMode
    (lockCompareExchange status oldValue newValue,
      if oldValue = status then writing else awaitWrite status)
  | exitWrite => (status, exitWriteExchange status (status ||| readerMode))
  | exitWriteExchange oldValue newValue =>
    (lockCompareExchange status oldValue newValue,
      if oldValue ≠ status then exitWrite else outside)
  | outside => (status, outside)
  | reading => (status, reading)
  | writing => (status, writing)
  | assertionFailed => (status, assertionFailed)

end Phase

section Threads

variable {ι : Type*}

/-- One atomic step of thread `i`. Only the threads of `readers` ask for read access and
only those of `writers` for write access, and each leaves what it has entered. -/
inductive Step (readers writers : Finset ι) (i : ι) :
    BitVec 32 → Phase → BitVec 32 → Phase → Prop
  | callEnterRead {status : BitVec 32} (h : i ∈ readers) :
    Step readers writers i status .outside status .enterRead
  | callExitRead {status : BitVec 32} :
    Step readers writers i status .reading status .exitRead
  | callEnterWrite {status : BitVec 32} (h : i ∈ writers) :
    Step readers writers i status .outside status .enterWrite
  | callExitWrite {status : BitVec 32} :
    Step readers writers i status .writing status .exitWrite
  | access {status : BitVec 32} {phase : Phase} :
    Step readers writers i status phase (phase.advance status).1 (phase.advance status).2

/-- A lock after `initialize`, with every thread outside. -/
def start : Threads ι (BitVec 32) Phase := ⟨readerMode, fun _ => .outside⟩

end Threads

/-- What a thread is to the lock word. -/
inductive Standing where
  | absent
  | reader
  | waitingWriter
  | writer
  deriving DecidableEq

/-- A thread counts from the exchange that lets it in to the one that lets it out. -/
def Phase.standing : Phase → Standing
  | .reading | .exitRead | .exitReadExchange .. => .reader
  | .awaitWrite _ => .waitingWriter
  | .writing | .exitWrite | .exitWriteExchange .. => .writer
  | .outside | .enterRead | .enterReadExchange .. | .enterWrite | .registerWriter _
  | .assertionFailed => .absent

/-- How many threads have the standing. -/
def count {ι : Type*} [Fintype ι] (standing : Standing) (c : Threads ι (BitVec 32) Phase) : ℕ :=
  threadCount (fun phase => decide (phase.standing = standing)) c.thread

/-- What a lock word says, as its declaration has it. -/
structure Fields where
  writerInside : Bool
  readers : ℕ
  waitingWriters : ℕ
  deriving DecidableEq

/-- Bit 0, bits 1 to 15 and bits 16 to 31. -/
def fields (status : BitVec 32) : Fields :=
  ⟨!status.getLsbD 0, (status.extractLsb' 1 15).toNat, (status.extractLsb' 16 16).toNat⟩

/-- A change of one field, or of two when a writer that waited goes in. -/
inductive Fields.Change : Fields → Fields → Prop
  | none (f : Fields) : Change f f
  | enterRead (readers : ℕ) : Change ⟨false, readers, 0⟩ ⟨false, readers + 1, 0⟩
  | exitRead (readers waitingWriters : ℕ) :
    Change ⟨false, readers + 1, waitingWriters⟩ ⟨false, readers, waitingWriters⟩
  | enterWrite : Change ⟨false, 0, 0⟩ ⟨true, 0, 0⟩
  | registerWriter (inside : Bool) (readers waitingWriters : ℕ) :
    Change ⟨inside, readers, waitingWriters⟩ ⟨inside, readers, waitingWriters + 1⟩
  | admitWriter (waitingWriters : ℕ) :
    Change ⟨false, 0, waitingWriters + 1⟩ ⟨true, 0, waitingWriters⟩
  | exitWrite (waitingWriters : ℕ) : Change ⟨true, 0, waitingWriters⟩ ⟨false, 0, waitingWriters⟩

section Words

/-! Every mask and every sum of the code, as arithmetic on the value of the word. -/

variable (status : BitVec 32)

theorem toNat_and_maskWaitingWriters :
    (status &&& maskWaitingWriters).toNat = status.toNat % 65536 := by
  rw [BitVec.toNat_and]
  exact Nat.and_two_pow_sub_one_eq_mod _ 16

theorem toNat_and_maskReaders :
    (status &&& maskReaders).toNat = status.toNat / 65536 * 65536 := by
  have hshift : status &&& maskReaders = (status >>> 16) <<< 16 := by
    rw [show maskReaders = 0xffff0000#32 from rfl]
    ext i hi
    interval_cases i <;> simp
  have hlt := status.isLt
  rw [hshift]
  simp only [BitVec.toNat_shiftLeft, BitVec.toNat_ushiftRight, Nat.shiftLeft_eq,
    Nat.shiftRight_eq_div_pow]
  omega

theorem toNat_and_maskMode : (status &&& maskMode).toNat = status.toNat / 2 * 2 := by
  have hshift : status &&& maskMode = (status >>> 1) <<< 1 := by
    rw [show maskMode = 0xfffffffe#32 from rfl]
    ext i hi
    interval_cases i <;> simp
  have hlt := status.isLt
  rw [hshift]
  simp only [BitVec.toNat_shiftLeft, BitVec.toNat_ushiftRight, Nat.shiftLeft_eq,
    Nat.shiftRight_eq_div_pow]
  omega

theorem toNat_or_readerMode : (status ||| readerMode).toNat = status.toNat / 2 * 2 + 1 := by
  have hshift : status ||| readerMode = (status &&& maskMode) ||| readerMode := by
    rw [show maskMode = 0xfffffffe#32 from rfl, show readerMode = 1#32 from rfl]
    ext i hi
    interval_cases i <;> simp
  have hor := Nat.two_pow_add_eq_or_of_lt (i := 1) (b := 1) (by decide) (status.toNat / 2)
  rw [hshift, BitVec.toNat_or, toNat_and_maskMode, mul_comm, ← pow_one 2]
  exact hor.symm

/-- The fields of a word that is made of their values. -/
theorem fields_of_toNat {inside : Bool} {readers waitingWriters : ℕ}
    (h : status.toNat = (!inside).toNat + 2 * readers + 65536 * waitingWriters)
    (hreaders : readers < 32768) : fields status = ⟨inside, readers, waitingWriters⟩ := by
  have hlt := status.isLt
  have hbit := Bool.toNat_le (!inside)
  simp only [fields, Fields.mk.injEq, BitVec.extractLsb'_toNat, Nat.shiftRight_eq_div_pow,
    BitVec.getLsbD, Nat.testBit_zero, Nat.reducePow]
  refine ⟨?_, by omega, by omega⟩
  cases inside
  · have hodd : status.toNat % 2 = 1 := by
      simp only [Bool.not_false, Bool.toNat_true] at h
      omega
    simp [hodd]
  · have heven : status.toNat % 2 = 0 := by
      simp only [Bool.not_true, Bool.toNat_false] at h
      omega
    simp [heven]

end Words

end OMR.GC.ReaderWriterLock
