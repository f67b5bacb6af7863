import OMR.GC.ForwardedHeader
import OMR.Lib.Extent
import OMR.Lib.Interleaving

/-!
# Copying an object together

A large object that the concurrent scavenger has forwarded is copied by the thread that
won and by those that lost. What remains to be copied and how many losers take part is
kept in the header slot of the destination, in the uncompressed build.
-/

namespace OMR.GC

open OMR.Lib

namespace CooperativeCopy

/-- `SIZE_ALIGNMENT`. -/
def sizeAlignment : BitVec 64 := 0xfff#64

/-- `OUTSTANDING_COPIES_SHIFT`. -/
def outstandingCopiesShift : ℕ := 8

/-- `MAX_OUTSTANDING_COPIES`. -/
def maxOutstandingCopies : BitVec 64 := 4#64

/-- `_remainingSizeMask`. -/
def remainingSizeMask : BitVec 64 := ~~~sizeAlignment

/-- `_copyProgressInfoMask`. -/
def copyProgressInfoMask : BitVec 64 := remainingSizeMask ||| (0xf#64 <<< outstandingCopiesShift)

/-- `_beingCopiedTag`. -/
def beingCopiedTag : BitVec 64 := 4#64

/-- `_minIncrement`. -/
def minIncrement : BitVec 64 := 131072#64 &&& remainingSizeMask

/-- `OMR_MAX`. -/
def omrMax (x y : BitVec 64) : BitVec 64 := if y < x then x else y

/-- `OMR_MIN`. -/
def omrMin (x y : BitVec 64) : BitVec 64 := if x < y then x else y

def remainingSizeToCopy (slot : BitVec 64) : BitVec 64 := slot &&& remainingSizeMask

def outstandingCopies (slot : BitVec 64) : BitVec 64 :=
  (slot &&& sizeAlignment) >>> outstandingCopiesShift

/-- The value of the slot while the object is being copied. -/
def progress (remaining outstanding : BitVec 64) : BitVec 64 :=
  remaining ||| (outstanding <<< outstandingCopiesShift) ||| beingCopiedTag

/-- `copySetup`: the size of the first section and what remains after it. -/
def copySetup (remainingSizeToCopy : BitVec 64) : BitVec 64 × BitVec 64 :=
  let copyOffset := 8#64
  let remaining := remainingSizeToCopy - copyOffset
  let sizeToCopy := omrMin remaining (omrMax (remaining >>> 7) minIncrement)
  let remaining := remaining - sizeToCopy
  let alignmentResidue := remaining &&& sizeAlignment
  (sizeToCopy + alignmentResidue, remaining - alignmentResidue)

/-- The next section of `winObjectSectionToCopy` and what remains after it. -/
def sectionToCopy (remaining : BitVec 64) : BitVec 64 × BitVec 64 :=
  let sizeToCopy := omrMax ((remaining >>> 7) &&& ~~~sizeAlignment) minIncrement
  let sizeToCopy := omrMin remaining sizeToCopy
  (sizeToCopy, remaining - sizeToCopy)

/-- The copy of the header that `commenceFixup` makes. -/
def commenceFixup (preserved : BitVec 64) : BitVec 64 :=
  (preserved &&& ~~~copyProgressInfoMask) ||| beingCopiedTag

/-- The copy of the header that `commitFixup` makes, from the one it has read. -/
def commitFixup (preserved slot : BitVec 64) : BitVec 64 :=
  (preserved &&& copyProgressInfoMask) ||| (slot &&& ~~~copyProgressInfoMask &&& ~~~beingCopiedTag)

/-- A change of object flags, by the masks of those to clear and those to set. -/
structure FlagChange where
  bitsToClear : BitVec 64
  bitsToSet : BitVec 64

namespace FlagChange

/-- Only flags are changed, and not the one that says the object is being copied. -/
def Permitted (c : FlagChange) : Prop :=
  (c.bitsToClear ||| c.bitsToSet) &&& (copyProgressInfoMask ||| beingCopiedTag) = 0

instance (c : FlagChange) : Decidable c.Permitted := inferInstanceAs (Decidable (_ = _))

/-- `setObjectFlags`. -/
def apply (c : FlagChange) (slot : BitVec 64) : BitVec 64 :=
  (slot &&& ~~~c.bitsToClear) ||| c.bitsToSet

/-- A header after several changes of its flags, the last one first. -/
def applyAll : List FlagChange → BitVec 64 → BitVec 64
  | [], slot => slot
  | c :: changes, slot => c.apply (applyAll changes slot)

end FlagChange

/-- What the threads share. -/
structure Shared where
  /-- The header slot of the destination. -/
  slot : BitVec 64
  /-- The header of the object that is copied. -/
  source : MutableHeaderFields .uncompressed
  /-- The bytes of the destination by their offset. -/
  dest : ℕ → BitVec 8
  /-- The first section and those won since, the last one first. -/
  sections : List Extent

/-- The offset of a section in the object: `copyOffset` of `copySection`. -/
def sectionBase (remaining : BitVec 64) : ℕ := 8 + remaining.toNat

/-- A section that a thread has won: what remained after it, its size and how much of
it has been copied. -/
structure Section where
  remaining : BitVec 64
  size : BitVec 64
  done : ℕ

/-- The bytes of a section that are still to be copied. -/
def Section.pending (sec : Section) : Set ℕ :=
  Set.Ico (sectionBase sec.remaining + sec.done) (sectionBase sec.remaining + sec.size.toNat)

/-- The section as the extent of its offsets. -/
def Section.extent (sec : Section) : Extent := ⟨sectionBase sec.remaining, sec.size.toNat⟩

/-- The section before any of it is copied. -/
def Section.start (remaining size : BitVec 64) : Section := ⟨remaining, size, 0⟩

/-- A thread in `copyOrWait`. -/
inductive Helper
  | constructing
  | constructed (h : ForwardedHeader .uncompressed)
  /-- In `copyOrWaitOutline`, before it reads the slot. -/
  | looping (participatingInCopy : Bool)
  | loaded (participatingInCopy : Bool) (oldValue : BitVec 64)
  | copying (sec : Section)
  | returned

/-- The thread that won, from its copy of the first section on. -/
inductive Winner
  | copying (sec : Section)
  /-- In `copyOrWaitWinner`, before it reads the slot. -/
  | looping
  | loaded (oldValue : BitVec 64)
  /-- `copyOrWaitWinner` has returned. -/
  | copied
  /-- After `commenceFixup`, with the changes of flags made since. -/
  | fixing (changes : List FlagChange)
  /-- In `commitFixup`, between the read of the slot and the write of it. -/
  | committing (changes : List FlagChange) (slot : BitVec 64)
  | committed (changes : List FlagChange)
  /-- In `commitFixup`, between the read of the source header and the write of it. -/
  | clearingHint (changes : List FlagChange) (source : HeaderBuild.uncompressed.Slot)
  | finished (changes : List FlagChange)

section Steps

variable (bytes : ℕ → BitVec 8) (preserved objectPtr : BitVec 64)

/-- One byte of `copySection`. -/
def Shared.copyByte (bytes : ℕ → BitVec 8) (s : Shared) (sec : Section) : Shared :=
  let offset := sectionBase sec.remaining + sec.done
  { s with dest := Function.update s.dest offset (bytes offset) }

/-- A compare-and-swap that wins a section. -/
def Shared.win (s : Shared) (remaining size outstanding : BitVec 64) : Shared :=
  { s with slot := progress remaining outstanding
           sections := (Section.start remaining size).extent :: s.sections }

/-- What `copyOrWaitOutline` does between its read of the slot and the next one, or the copy
of a section; `sizeToCopy` is never 0 there. -/
def Helper.attempt (s : Shared) (participatingInCopy : Bool) (oldValue : BitVec 64) :
    Shared × Helper :=
  let remaining := remainingSizeToCopy oldValue
  let outstanding := outstandingCopies oldValue
  if 0 = oldValue &&& beingCopiedTag then
    (s, .returned)
  else if 0 = remaining then
    if participatingInCopy then
      if s.slot = oldValue then
        ({ s with slot := ((outstanding - 1) <<< outstandingCopiesShift) ||| beingCopiedTag },
          .looping false)
      else (s, .looping true)
    else (s, .looping false)
  else if ¬ participatingInCopy ∧ ¬ outstanding < maxOutstandingCopies then
    (s, .looping false)
  else
    let outstanding := if participatingInCopy then outstanding else outstanding + 1
    let (sizeToCopy, remaining) := sectionToCopy remaining
    if s.slot = oldValue then
      (s.win remaining sizeToCopy outstanding,
        if 0 = sizeToCopy then .looping participatingInCopy
        else .copying (.start remaining sizeToCopy))
    else (s, .looping participatingInCopy)

/-- The atomic steps of a helper. -/
inductive HelperStep : Shared → Helper → Shared → Helper → Prop
  | construct {s : Shared} :
      HelperStep s .constructing s (.constructed ⟨objectPtr, s.source⟩)
  | copyOrWait {s : Shared} {h : ForwardedHeader .uncompressed} :
      HelperStep s (.constructed h) s (if h.isBeingCopied then .looping false else .returned)
  | load {s : Shared} {p : Bool} : HelperStep s (.looping p) s (.loaded p s.slot)
  | attempt {s : Shared} {p : Bool} {old : BitVec 64} :
      HelperStep s (.loaded p old) (Helper.attempt s p old).1 (Helper.attempt s p old).2
  | copyByte {s : Shared} {sec : Section} (h : sec.done < sec.size.toNat) :
      HelperStep s (.copying sec) (Shared.copyByte bytes s sec)
        (.copying { sec with done := sec.done + 1 })
  | endSection {s : Shared} {sec : Section} (h : ¬ sec.done < sec.size.toNat) :
      HelperStep s (.copying sec) s (.looping true)

/-- What `copyOrWaitWinner` does after its read of the slot. -/
def Winner.attempt (s : Shared) (oldValue : BitVec 64) : Shared × Winner :=
  let remaining := remainingSizeToCopy oldValue
  let outstanding := outstandingCopies oldValue
  if 0 = remaining then
    if 0 = outstanding then (s, .copied) else (s, .looping)
  else
    let (sizeToCopy, remaining) := sectionToCopy remaining
    if s.slot = oldValue then
      (s.win remaining sizeToCopy outstanding,
        if 0 = sizeToCopy then .looping else .copying (.start remaining sizeToCopy))
    else (s, .looping)

/-- The atomic steps of the winner. -/
inductive WinnerStep : Shared → Winner → Shared → Winner → Prop
  | copyByte {s : Shared} {sec : Section} (h : sec.done < sec.size.toNat) :
      WinnerStep s (.copying sec) (Shared.copyByte bytes s sec)
        (.copying { sec with done := sec.done + 1 })
  | endSection {s : Shared} {sec : Section} (h : ¬ sec.done < sec.size.toNat) :
      WinnerStep s (.copying sec) s .looping
  | load {s : Shared} : WinnerStep s .looping s (.loaded s.slot)
  | attempt {s : Shared} {old : BitVec 64} :
      WinnerStep s (.loaded old) (Winner.attempt s old).1 (Winner.attempt s old).2
  | commenceFixup {s : Shared} :
      WinnerStep s .copied { s with slot := commenceFixup preserved } (.fixing [])
  | setObjectFlags {s : Shared} {changes : List FlagChange} (c : FlagChange) (hc : c.Permitted) :
      WinnerStep s (.fixing changes) { s with slot := c.apply s.slot } (.fixing (c :: changes))
  | loadSlot {s : Shared} {changes : List FlagChange} :
      WinnerStep s (.fixing changes) s (.committing changes s.slot)
  | storeSlot {s : Shared} {changes : List FlagChange} {slot : BitVec 64} :
      WinnerStep s (.committing changes slot) { s with slot := commitFixup preserved slot }
        (.committed changes)
  | loadSource {s : Shared} {changes : List FlagChange} :
      WinnerStep s (.committed changes) s (.clearingHint changes s.source.slot)
  | storeSource {s : Shared} {changes : List FlagChange} 
      {source : HeaderBuild.uncompressed.Slot} :
      WinnerStep s (.clearingHint changes source)
        { s with source := { s.source with slot := source &&& ~~~beingCopiedHint .uncompressed } }
        (.finished changes)

/-- The winner and the helpers of one object. -/
structure ObjectCopy (ι : Type*) extends Threads ι Shared Helper where
  winner : Winner

variable {ι : Type*} [DecidableEq ι]

/-- One atomic step of any of the threads. -/
inductive Step : ObjectCopy ι → ObjectCopy ι → Prop
  | winner {c : ObjectCopy ι} {s' : Shared} {w' : Winner}
      (h : WinnerStep bytes preserved c.shared c.winner s' w') :
      Step c ⟨⟨s', c.thread⟩, w'⟩
  | helper {c : ObjectCopy ι} (i : ι) {s' : Shared} {p' : Helper}
      (h : HelperStep bytes objectPtr c.shared (c.thread i) s' p') :
      Step c ⟨c.toThreads.after i s' p', c.winner⟩

/-- The object has been forwarded to `destination`, after `copySetup` for an object of `size`
bytes; the rest of the destination is as it was. -/
def ObjectCopy.start (size destination : BitVec 64) (dest : ℕ → BitVec 8) : ObjectCopy ι where
  shared :=
    { slot := progress (copySetup size).2 0
      source := forwardedFields .uncompressed destination 6
      dest := dest
      sections := [(Section.start (copySetup size).2 (copySetup size).1).extent] }
  thread := fun _ => .constructing
  winner := .copying (.start (copySetup size).2 (copySetup size).1)

end Steps

end CooperativeCopy

end OMR.GC
