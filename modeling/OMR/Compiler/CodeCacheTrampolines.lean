import Mathlib.Tactic

/-!
# The trampolines of a code cache

Reservation, lookup and replacement of method trampolines in `OMRCodeCache.cpp`, and
their synchronisation from temporary ones. A trampoline is the address of its slot, and
its code is the address it jumps to. A hash entry is known by its method.
-/

namespace OMR.Compiler

/-- What the trampolines of a code cache depend on. -/
structure TrampolineConfig (M : Type*) where
  trampolineCodeSize : ℕ
  codeCacheTempTrampolineSyncArraySize : ℕ
  hashResolvedMethod : M → ℕ
  /-- `_size` of the hash table. -/
  tableSize : ℕ

/-- `CodeCacheHashEntry` of a resolved method. -/
structure TrampolineEntry (PC : Type*) where
  currentStartPC : Option PC
  currentTrampoline : Option ℕ

/-- `CodeCacheTempTrampolineSyncBlock`. -/
structure TempTrampolineSyncBlock (M : Type*) where
  /-- The first `_entryCount` entries of `_hashEntryArray`. -/
  hashEntries : List M
  entryListSize : ℕ

structure TrampolineCache (M PC : Type*) where
  trampolineBase : ℕ
  tempTrampolineBase : ℕ
  tempTrampolineTop : ℕ
  tempTrampolineNext : ℕ
  trampolineAllocationMark : ℕ
  trampolineReservationMark : ℕ
  /-- `CODECACHE_FULL_SYNC_REQUIRED`. -/
  fullSyncRequired : Bool
  trampolineSyncList : List (TempTrampolineSyncBlock M)
  buckets : ℕ → List M
  entry : M → TrampolineEntry PC
  /-- Where the code of each trampoline jumps to. -/
  code : ℕ → Option PC
  /-- `TR::Compiler->mtd.startPC`. -/
  startPC : M → PC

namespace TrampolineCache

variable {M PC : Type*} [DecidableEq M] [DecidableEq PC] (config : TrampolineConfig M)

/-- The trampolines that `initialize` leaves, with the first synchronisation block when there
are temporary trampolines. -/
def initialState (trampolineBase tempTrampolineBase tempTrampolinesMax : ℕ) (code : ℕ → Option PC)
    (startPC : M → PC) : TrampolineCache M PC where
  trampolineBase := trampolineBase
  tempTrampolineBase := tempTrampolineBase
  tempTrampolineTop := tempTrampolineBase + config.trampolineCodeSize * tempTrampolinesMax
  tempTrampolineNext := tempTrampolineBase
  trampolineAllocationMark := tempTrampolineBase
  trampolineReservationMark := tempTrampolineBase
  fullSyncRequired := false
  trampolineSyncList :=
    if tempTrampolinesMax = 0 then [] else [⟨[], config.codeCacheTempTrampolineSyncArraySize⟩]
  buckets := fun _ => []
  entry := fun _ => ⟨none, none⟩
  code := code
  startPC := startPC

/-- The bucket of a method. -/
def bucketOf (method : M) : ℕ := config.hashResolvedMethod method % config.tableSize

/-- `findResolvedMethod`: whether there is an entry. -/
def findResolvedMethod (s : TrampolineCache M PC) (method : M) : Bool :=
  (s.buckets (bucketOf config method)).contains method

def allocateTrampoline (s : TrampolineCache M PC) : Option ℕ × TrampolineCache M PC :=
  if s.trampolineAllocationMark > s.trampolineReservationMark then
    let mark := s.trampolineAllocationMark - config.trampolineCodeSize
    (some mark, { s with trampolineAllocationMark := mark })
  else (none, s)

def allocateTempTrampoline (s : TrampolineCache M PC) : Option ℕ × TrampolineCache M PC :=
  if s.tempTrampolineNext ≥ s.tempTrampolineTop then (none, s)
  else (some s.tempTrampolineNext,
    { s with tempTrampolineNext := s.tempTrampolineNext + config.trampolineCodeSize })

def reserveTrampoline (s : TrampolineCache M PC) : Option ℕ × TrampolineCache M PC :=
  if s.trampolineReservationMark < s.trampolineBase + config.trampolineCodeSize then (none, s)
  else
    let mark := s.trampolineReservationMark - config.trampolineCodeSize
    (some mark, { s with trampolineReservationMark := mark })

/-- `addResolvedMethod`, when `allocateHashEntry` succeeds. -/
def addResolvedMethod (s : TrampolineCache M PC) (method : M) : TrampolineCache M PC :=
  let bucket := bucketOf config method
  { s with
    entry := Function.update s.entry method ⟨none, none⟩
    buckets := Function.update s.buckets bucket (method :: s.buckets bucket) }

/-- `reserveResolvedTrampoline`; `allocated` says whether `allocateHashEntry` succeeds. -/
def reserveResolvedTrampoline (s : TrampolineCache M PC) (method : M) (allocated : Bool) :
    TrampolineCache M PC :=
  if s.findResolvedMethod config method then s
  else
    match s.reserveTrampoline config with
    | (some _, s) => if allocated then s.addResolvedMethod config method else s
    | (none, s) => s

/-- `createTrampoline`, through a pointer that should not be `NULL`. -/
def createTrampoline (s : TrampolineCache M PC) (trampoline : Option ℕ) (targetStartPC : PC) :
    TrampolineCache M PC :=
  match trampoline with
  | none => s
  | some address => { s with code := Function.update s.code address (some targetStartPC) }

/-- `findTrampoline` for a method with an entry. -/
def findTrampoline (s : TrampolineCache M PC) (method : M) : Option ℕ × TrampolineCache M PC :=
  match (s.entry method).currentTrampoline with
  | some trampoline => (some trampoline, s)
  | none =>
    let newPC := s.startPC method
    let (trampoline, s) := s.allocateTrampoline config
    let s := s.createTrampoline trampoline newPC
    (trampoline, { s with entry := Function.update s.entry method ⟨some newPC, trampoline⟩ })

/-- `allocateTempTrampolineSyncBlock`, when the memory for it is there. -/
def allocateTempTrampolineSyncBlock (s : TrampolineCache M PC) : TrampolineCache M PC :=
  { s with trampolineSyncList :=
      ⟨[], config.codeCacheTempTrampolineSyncArraySize⟩ :: s.trampolineSyncList }

/-- The entry goes to the first block with a free place. -/
def addToFirstFree (method : M) :
    List (TempTrampolineSyncBlock M) → Option (List (TempTrampolineSyncBlock M))
  | [] => none
  | block :: blocks =>
    if block.hashEntries.length < block.entryListSize then
      some ({ block with hashEntries := block.hashEntries ++ [method] } :: blocks)
    else (addToFirstFree method blocks).map (block :: ·)

/-- The entries that a synchronisation goes through. -/
def listed (s : TrampolineCache M PC) : List M :=
  s.trampolineSyncList.flatMap TempTrampolineSyncBlock.hashEntries

/-- `saveTempTrampoline`; `allocated` says whether there is memory for another block. -/
def saveTempTrampoline (s : TrampolineCache M PC) (method : M) (allocated : Bool) :
    TrampolineCache M PC :=
  if s.listed.contains method then s
  else
    match addToFirstFree method s.trampolineSyncList with
    | some blocks => { s with trampolineSyncList := blocks }
    | none =>
      if allocated then
        let s := s.allocateTempTrampolineSyncBlock config
        match s.trampolineSyncList with
        | [] => s
        | block :: blocks => { s with
            trampolineSyncList :=
              { block with hashEntries := block.hashEntries ++ [method] } :: blocks }
      else { s with fullSyncRequired := true }

/-- The update of the hash entry at the end of `replaceTrampoline`. -/
def recordStartPC (s : TrampolineCache M PC) (method : M) (newTargetPC : PC) :
    TrampolineCache M PC :=
  { s with entry :=
      Function.update s.entry method { s.entry method with currentStartPC := some newTargetPC } }

/-- A new permanent trampoline for `replaceTrampoline`. -/
def newTrampoline (s : TrampolineCache M PC) (method : M) : Option ℕ × TrampolineCache M PC :=
  let (trampoline, s) := s.allocateTrampoline config
  let entry := { s.entry method with currentTrampoline := trampoline }
  (trampoline, { s with entry := Function.update s.entry method entry })

/-- `replaceTrampoline` for a method with an entry. -/
def replaceTrampoline (s : TrampolineCache M PC) (method : M) (oldTrampoline : Option ℕ)
    (newTargetPC : PC) (needSync allocated : Bool) : Option ℕ × TrampolineCache M PC :=
  if needSync then
    match oldTrampoline with
    | some _ =>
      let (trampoline, s) := s.allocateTempTrampoline config
      let s := s.saveTempTrampoline config method allocated
      match trampoline with
      | none => (none, s)
      | some trampoline => (some trampoline, s.recordStartPC method newTargetPC)
    | none =>
      let (trampoline, s) := s.newTrampoline config method
      (trampoline, s.recordStartPC method newTargetPC)
  else
    match oldTrampoline with
    | some trampoline => (some trampoline, s.recordStartPC method newTargetPC)
    | none =>
      let (trampoline, s) := s.newTrampoline config method
      (trampoline, s.recordStartPC method newTargetPC)

/-- The permanent trampoline of a method gets its start PC again. -/
def rewrite (s : TrampolineCache M PC) (method : M) : TrampolineCache M PC :=
  let newPC := s.startPC method
  (s.createTrampoline (s.entry method).currentTrampoline newPC).recordStartPC method newPC

/-- One entry of the table in a full synchronisation. -/
def fullSyncEntry (s : TrampolineCache M PC) (method : M) : TrampolineCache M PC :=
  if (s.entry method).currentTrampoline.isSome ∧
      (s.entry method).currentStartPC ≠ some (s.startPC method) then
    s.rewrite method
  else s

/-- The entries of the hash table, bucket after bucket. -/
def tableEntries (s : TrampolineCache M PC) : List M :=
  (List.range config.tableSize).flatMap s.buckets

/-- The blocks of the synchronisation list without their entries. -/
def emptyBlocks (blocks : List (TempTrampolineSyncBlock M)) : List (TempTrampolineSyncBlock M) :=
  blocks.map fun block => { block with hashEntries := [] }

def syncTempTrampolines (s : TrampolineCache M PC) : TrampolineCache M PC :=
  let s :=
    if s.fullSyncRequired then
      let s := (s.tableEntries config).foldl fullSyncEntry s
      { s with trampolineSyncList := emptyBlocks s.trampolineSyncList, fullSyncRequired := false }
    else
      let s := s.listed.foldl rewrite s
      { s with trampolineSyncList := emptyBlocks s.trampolineSyncList }
  { s with tempTrampolineNext := s.tempTrampolineBase }

end TrampolineCache

end OMR.Compiler
