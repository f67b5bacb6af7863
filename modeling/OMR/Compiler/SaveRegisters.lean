import OMR.Compiler.BitVectorIterator

/-!
# Saving and restoring registers

`saveOrRestoreRegisters` of the code generator: consecutive registers of a bit vector are saved or
restored by one instruction for several registers, the other ones by an instruction each. A
register has its index in the vector as its name.
-/

namespace OMR.Compiler

/-- What the linkage is asked for. -/
inductive SaveRestore where
  | savePreservedRegister (regIndex offset : ℤ)
  | restorePreservedRegister (regIndex offset : ℤ)
  | composeSavesRestores (firstReg lastReg offset numRegs : ℤ) (doSaves : Bool)
deriving DecidableEq, Repr

namespace SaveRestore

/-- The registers that an instruction stores or loads. -/
def registers : SaveRestore → List ℤ
  | savePreservedRegister regIndex _ => [regIndex]
  | restorePreservedRegister regIndex _ => [regIndex]
  | composeSavesRestores firstReg lastReg _ _ _ => countUp firstReg (lastReg + 1)

/-- Whether an instruction is a store. -/
def isSave : SaveRestore → Bool
  | savePreservedRegister _ _ => true
  | restorePreservedRegister _ _ => false
  | composeSavesRestores _ _ _ _ doSaves => doSaves

/-- The instruction for a single register. -/
def single (doSaves : Bool) (regIndex : ℤ) : SaveRestore :=
  if doSaves then savePreservedRegister regIndex (-1) else restorePreservedRegister regIndex (-1)

variable {doSaves : Bool} {regIndex : ℤ}

@[simp] theorem registers_single : (single doSaves regIndex).registers = [regIndex] := by
  cases doSaves <;> rfl

@[simp] theorem isSave_single : (single doSaves regIndex).isSave = doSaves := by
  cases doSaves <;> rfl

end SaveRestore

open SaveRestore

/-- The variables of the scan, with the instructions up to `cursor`. -/
structure RegisterScan where
  startIdx : ℤ
  endIdx : ℤ
  prevIdx : ℤ
  i : ℤ
  savedRegs : ℤ
  cursor : List SaveRestore

namespace RegisterScan

def init : RegisterScan := ⟨-1, -1, -1, 0, 0, []⟩

/-- The pattern is broken: the instructions for the registers up to this point. -/
def breakPattern (numRegs : ℤ) (doSaves : Bool) (s : RegisterScan) : RegisterScan :=
  if s.i > 1 then
    { s with
      cursor := s.cursor ++ [composeSavesRestores s.startIdx s.endIdx (-1) numRegs doSaves]
      savedRegs := s.savedRegs + s.i
      startIdx := -1
      endIdx := -1
      i := 0 }
  else
    { s with
      cursor := s.cursor ++ [single doSaves s.prevIdx]
      savedRegs := s.savedRegs + 1
      startIdx := -1
      endIdx := -1
      i := 0 }

/-- The body of the scan. -/
def visit (numRegs : ℤ) (doSaves : Bool) (s : RegisterScan) (curIdx : ℤ) : RegisterScan :=
  let s :=
    if s.prevIdx ≠ -1 then
      if curIdx = s.prevIdx + 1 then
        { s with
          startIdx := if s.startIdx = -1 then s.prevIdx else s.startIdx
          endIdx := curIdx }
      else s.breakPattern numRegs doSaves
    else { s with startIdx := curIdx }
  { s with i := s.i + 1, prevIdx := curIdx }

/-- The last pattern. -/
def composeRemaining (numRegs : ℤ) (doSaves : Bool) (s : RegisterScan) : RegisterScan :=
  if numRegs > 1 ∧ s.startIdx ≠ -1 then
    { s with
      cursor := s.cursor ++ [composeSavesRestores s.startIdx s.endIdx (-1) numRegs doSaves]
      savedRegs := s.savedRegs + (s.endIdx - s.startIdx + 1) }
  else s

end RegisterScan

open RegisterScan

/-- `saveOrRestoreRegisters`; the instructions follow the cursor. `none` if `fuel` rounds are not
enough for one of the loops. The counter `savedRegs` has 32 bits when it is counted down to zero. -/
def saveOrRestoreRegisters {L : Layout} (regs : BitVector L) (doSaves : Bool) (fuel : ℕ) :
    Option (List SaveRestore) :=
  let numRegs := regs.elementCount
  (regs.forElements (visit numRegs doSaves) (regs.start 0) init fuel).bind fun s =>
    let s := s.composeRemaining numRegs doSaves
    if s.savedRegs ≠ numRegs then
      let curIndex := regs.getNextBit^[(s.savedRegs % 2 ^ 32).toNat] (regs.start 0)
      regs.forElements (fun cursor curIdx => cursor ++ [single doSaves curIdx]) curIndex s.cursor
        fuel
    else some s.cursor

namespace RegisterScan

variable {numRegs curIdx first last : ℤ} {doSaves : Bool} {s : RegisterScan} {flushed : List ℤ}

/-- What the scan knows: there are instructions for the registers in `flushed`, and the current
pattern goes from `first` to `last`. A pattern that begins with the first register of all has its
start even when it has one register only. -/
structure Scanned (doSaves : Bool) (flushed : List ℤ) (first last : ℤ) (s : RegisterScan) :
    Prop where
  nonneg : 0 ≤ first
  le : first ≤ last
  registers_cursor : s.cursor.flatMap registers = flushed
  isSave_cursor : ∀ instr ∈ s.cursor, instr.isSave = doSaves
  savedRegs_eq : s.savedRegs = flushed.length
  prevIdx_eq : s.prevIdx = last
  i_eq : s.i = last - first + 1
  startIdx_eq : s.startIdx = if first < last ∨ flushed = [] then first else -1
  endIdx_eq : first < last → s.endIdx = last

/-- One more instruction behind those of a scan. -/
theorem registers_append {cursor : List SaveRestore} {instr : SaveRestore} {l : List ℤ}
    (hcursor : cursor.flatMap registers = flushed) (hinstr : instr.registers = l) :
    (cursor ++ [instr]).flatMap registers = flushed ++ l := by
  rw [List.flatMap_append, hcursor, List.flatMap_singleton, hinstr]

theorem isSave_append {cursor : List SaveRestore} {instr : SaveRestore}
    (hcursor : ∀ instr ∈ cursor, instr.isSave = doSaves) (hinstr : instr.isSave = doSaves) :
    ∀ other ∈ cursor ++ [instr], other.isSave = doSaves := by
  intro other hother
  rcases List.mem_append.1 hother with hmem | hmem
  · exact hcursor other hmem
  · rw [List.mem_singleton.1 hmem]
    exact hinstr

theorem Scanned.length_countUp (h : Scanned doSaves flushed first last s) :
    ((countUp first (last + 1)).length : ℤ) = last - first + 1 := by
  have hle := h.le
  rw [countUp_eq_map, List.length_map, List.length_range]
  omega

/-- A pattern of several registers is known by its ends. -/
theorem Scanned.registers_compose (h : Scanned doSaves flushed first last s) (hlt : first < last) :
    (composeSavesRestores s.startIdx s.endIdx (-1) numRegs doSaves).registers =
      countUp first (last + 1) := by
  rw [registers, h.startIdx_eq, if_pos (.inl hlt), h.endIdx_eq hlt]

/-- A pattern of one register is the register before. -/
theorem Scanned.countUp_single (h : Scanned doSaves flushed first last s) (hlt : ¬first < last) :
    countUp first (last + 1) = [last] := by
  have hle := h.le
  have heq : first = last := by omega
  rw [heq, countUp_cons (by omega), countUp_of_le le_rfl]

theorem Scanned.breakPattern (numRegs : ℤ) (h : Scanned doSaves flushed first last s) :
    ((s.breakPattern numRegs doSaves).cursor.flatMap registers =
        flushed ++ countUp first (last + 1) ∧
      ∀ instr ∈ (s.breakPattern numRegs doSaves).cursor, instr.isSave = doSaves) ∧
      (s.breakPattern numRegs doSaves).savedRegs = (flushed ++ countUp first (last + 1)).length ∧
      (s.breakPattern numRegs doSaves).startIdx = -1 ∧ (s.breakPattern numRegs doSaves).i = 0 := by
  have hlen := h.length_countUp
  rw [RegisterScan.breakPattern, List.length_append]
  push_cast
  rw [hlen]
  by_cases hlt : first < last
  · rw [if_pos (by rw [h.i_eq]; omega)]
    refine ⟨⟨registers_append h.registers_cursor (h.registers_compose hlt),
      isSave_append h.isSave_cursor rfl⟩, ?_, rfl, rfl⟩
    rw [h.savedRegs_eq, h.i_eq]
  · have hle := h.le
    rw [if_neg (by rw [h.i_eq]; omega), h.countUp_single hlt, h.prevIdx_eq]
    refine ⟨⟨registers_append h.registers_cursor registers_single,
      isSave_append h.isSave_cursor isSave_single⟩, ?_, rfl, rfl⟩
    dsimp only
    rw [h.savedRegs_eq]
    omega

/-- The first register. -/
theorem visit_init (numRegs : ℤ) (hnonneg : 0 ≤ curIdx) :
    Scanned doSaves [] curIdx curIdx (visit numRegs doSaves init curIdx) := by
  have hprev : ¬init.prevIdx ≠ -1 := not_not.2 rfl
  rw [visit, if_neg hprev]
  refine ⟨hnonneg, le_rfl, rfl, fun instr hinstr => absurd hinstr List.not_mem_nil, rfl, rfl, ?_,
    (if_pos (.inr rfl)).symm, fun hlt => absurd hlt (lt_irrefl _)⟩
  dsimp only [init]
  omega

/-- The pattern goes on. -/
theorem Scanned.visit_next (h : Scanned doSaves flushed first last s) :
    Scanned doSaves flushed first (last + 1) (visit numRegs doSaves s (last + 1)) := by
  have hnonneg := h.nonneg
  have hle := h.le
  have hprev := h.prevIdx_eq
  rw [visit, if_pos (by omega), if_pos (by rw [hprev])]
  refine ⟨hnonneg, by omega, h.registers_cursor, h.isSave_cursor, h.savedRegs_eq, rfl, ?_, ?_,
    fun _ => rfl⟩
  · dsimp only
    rw [h.i_eq]
    omega
  · have hstart : first < last + 1 ∨ flushed = [] := .inl (by omega)
    rw [if_pos hstart]
    dsimp only
    rw [h.startIdx_eq, hprev]
    split_ifs <;> omega

/-- The pattern is broken. -/
theorem Scanned.visit_break (h : Scanned doSaves flushed first last s) (hlt : last + 1 < curIdx) :
    Scanned doSaves (flushed ++ countUp first (last + 1)) curIdx curIdx
      (visit numRegs doSaves s curIdx) := by
  have hnonneg := h.nonneg
  have hle := h.le
  have hprev := h.prevIdx_eq
  obtain ⟨⟨hregisters, hsave⟩, hsaved, hstart, hi⟩ := h.breakPattern numRegs
  have hne : flushed ++ countUp first (last + 1) ≠ [] := by
    rw [countUp_cons (by omega)]
    exact List.append_ne_nil_of_right_ne_nil _ (List.cons_ne_nil _ _)
  rw [visit, if_pos (by omega), if_neg (by omega)]
  refine ⟨by omega, le_rfl, hregisters, hsave, hsaved, rfl, ?_, ?_,
    fun hlt => absurd hlt (lt_irrefl _)⟩
  · dsimp only
    rw [hi]
    omega
  · rw [if_neg fun hor => hor.elim (lt_irrefl _) hne]
    exact hstart

/-- The rest of the scan keeps what is known, for increasing registers. -/
theorem Scanned.foldl_visit (h : Scanned doSaves flushed first last s) {rest : List ℤ}
    (hsorted : (last :: rest).Pairwise (· < ·)) :
    ∃ flushed' first' last',
      Scanned doSaves flushed' first' last' (rest.foldl (visit numRegs doSaves) s) ∧
      flushed' ++ countUp first' (last' + 1) = flushed ++ countUp first (last + 1) ++ rest := by
  induction rest generalizing flushed first last s with
  | nil => exact ⟨flushed, first, last, h, (List.append_nil _).symm⟩
  | cons curIdx rest ih =>
    have hrest := hsorted.of_cons
    have hlt := List.rel_of_pairwise_cons hsorted List.mem_cons_self
    have hle := h.le
    rw [List.foldl_cons]
    rcases Int.lt_or_eq_of_le (Int.add_one_le_of_lt hlt) with hbroken | rfl
    · obtain ⟨flushed', first', last', hscanned, heq⟩ := ih (h.visit_break hbroken) hrest
      refine ⟨flushed', first', last', hscanned, heq.trans ?_⟩
      rw [countUp_cons (by omega : curIdx < curIdx + 1), countUp_of_le le_rfl, List.append_assoc,
        List.singleton_append]
    · obtain ⟨flushed', first', last', hscanned, heq⟩ := ih h.visit_next hrest
      refine ⟨flushed', first', last', hscanned, heq.trans ?_⟩
      rw [countUp_append (m := last + 1) (by omega) (by omega : last + 1 ≤ last + 1 + 1),
        countUp_cons (by omega : last + 1 < last + 1 + 1), countUp_of_le le_rfl,
        ← List.append_assoc, List.append_assoc _ [last + 1], List.singleton_append]

/-- What the scan has found out at its end. -/
theorem scan_members {regs : List ℤ} (numRegs : ℤ) (doSaves : Bool) (hne : regs ≠ [])
    (hnonneg : ∀ n ∈ regs, 0 ≤ n) (hsorted : regs.Pairwise (· < ·)) :
    ∃ flushed first last,
      Scanned doSaves flushed first last (regs.foldl (visit numRegs doSaves) init) ∧
      flushed ++ countUp first (last + 1) = regs := by
  obtain ⟨curIdx, rest, rfl⟩ := List.exists_cons_of_ne_nil hne
  obtain ⟨flushed, first, last, hscanned, heq⟩ :=
    (visit_init numRegs (hnonneg curIdx List.mem_cons_self)).foldl_visit hsorted
  refine ⟨flushed, first, last, hscanned, heq.trans ?_⟩
  rw [countUp_cons (by omega : curIdx < curIdx + 1), countUp_of_le le_rfl, List.nil_append,
    List.singleton_append]

/-- A last pattern of several registers is composed, and nothing remains. -/
theorem Scanned.composeRemaining_of_lt (h : Scanned doSaves flushed first last s)
    (hlt : first < last) (hnum : numRegs = flushed.length + (last - first + 1)) :
    s.composeRemaining numRegs doSaves =
      { s with
        cursor := s.cursor ++ [composeSavesRestores s.startIdx s.endIdx (-1) numRegs doSaves]
        savedRegs := numRegs } := by
  have hnonneg := h.nonneg
  have hstart : s.startIdx = first := by rw [h.startIdx_eq, if_pos (.inl hlt)]
  rw [composeRemaining, if_pos ⟨by omega, by omega⟩, h.savedRegs_eq, h.endIdx_eq hlt, hstart, hnum]

/-- A last pattern of one register is left for the second loop. -/
theorem Scanned.composeRemaining_of_eq (h : Scanned doSaves flushed first last s)
    (heq : ¬first < last) (hnum : numRegs = flushed.length + (last - first + 1)) :
    s.composeRemaining numRegs doSaves = s := by
  have hle := h.le
  refine if_neg fun hremaining => ?_
  obtain ⟨hone, hstart⟩ := hremaining
  rw [h.startIdx_eq] at hstart
  by_cases hflushed : flushed = []
  · rw [hflushed, List.length_nil] at hnum
    omega
  · exact hstart (if_neg fun hor => hor.elim heq hflushed)

theorem flatMap_registers_foldl (cursor : List SaveRestore) (regs : List ℤ) :
    (regs.foldl (fun cursor curIdx => cursor ++ [single doSaves curIdx]) cursor).flatMap registers =
      cursor.flatMap registers ++ regs := by
  induction regs generalizing cursor with
  | nil => exact (List.append_nil _).symm
  | cons curIdx regs ih =>
    rw [List.foldl_cons, ih, registers_append rfl registers_single, List.append_assoc,
      List.singleton_append]

theorem isSave_foldl {cursor : List SaveRestore} (regs : List ℤ)
    (hcursor : ∀ instr ∈ cursor, instr.isSave = doSaves) :
    ∀ instr ∈ regs.foldl (fun cursor curIdx => cursor ++ [single doSaves curIdx]) cursor,
      instr.isSave = doSaves := by
  induction regs generalizing cursor with
  | nil => exact hcursor
  | cons curIdx regs ih => exact ih (isSave_append hcursor isSave_single)

end RegisterScan

section saveOrRestoreRegisters

variable {L : Layout} {regs : BitVector L} {fuel : ℕ}

/-- The registers of the instructions are the members of the vector in their order. -/
theorem saveOrRestoreRegisters_eq_some (h : regs.WellFormed) (doSaves : Bool)
    (hfuel : (regs.members 0).length < fuel) :
    ∃ cursor, saveOrRestoreRegisters regs doSaves fuel = some cursor ∧
      cursor.flatMap registers = regs.members 0 ∧ ∀ instr ∈ cursor, instr.isSave = doSaves := by
  have hnum := h.elementCount_eq
  have hsize : -1 < regs.numChunks * (L.bitsInChunk : ℤ) := by
    have := Int.mul_nonneg h.numChunks_nonneg (Int.natCast_nonneg L.bitsInChunk)
    omega
  have hzero : (-1 + 1 : ℤ) = 0 := rfl
  have hscan := h.forElements_eq (visit regs.elementCount doSaves) (s := init) le_rfl hsize hfuel
  have hstart : regs.start 0 = regs.getNextBit (-1) := rfl
  rw [hzero] at hscan
  rw [saveOrRestoreRegisters, hstart]
  dsimp only
  rw [hscan, Option.bind_some]
  by_cases hne : regs.members 0 = []
  · rw [hne, List.length_nil, Nat.cast_zero] at hnum
    have hremaining : init.composeRemaining 0 doSaves = init :=
      if_neg fun hone => absurd hone.1 (by decide)
    have hsaved : init.savedRegs = 0 := rfl
    rw [hne, hnum, List.foldl_nil, hremaining, if_neg (not_not.2 hsaved)]
    exact ⟨_, rfl, rfl, fun instr hinstr => absurd hinstr List.not_mem_nil⟩
  obtain ⟨flushed, first, last, hscanned, heq⟩ := scan_members regs.elementCount doSaves
    hne (fun n hn => (mem_countUp.1 (List.mem_of_mem_filter hn)).1)
    (regs.members_pairwise 0)
  have hlen := hscanned.length_countUp
  have htotal : regs.elementCount = flushed.length + (last - first + 1) := by
    rw [hnum, ← heq, List.length_append, Nat.cast_add, hlen]
  have hle := hscanned.le
  generalize (regs.members 0).foldl (visit regs.elementCount doSaves) init = s at hscanned
  by_cases hlt : first < last
  · rw [hscanned.composeRemaining_of_lt hlt htotal, if_neg (not_not.2 rfl)]
    refine ⟨_, rfl, ?_, isSave_append hscanned.isSave_cursor rfl⟩
    rw [registers_append hscanned.registers_cursor (hscanned.registers_compose hlt), heq]
  · have hsaved := hscanned.savedRegs_eq
    have hbound := h.size_lt
    have hcount := regs.length_members_le
    have hskip : (s.savedRegs % 2 ^ 32).toNat = flushed.length := by omega
    obtain ⟨n, hn, hnsize, hiterate, hdrop⟩ :=
      h.iterate_getNextBit (k := flushed.length) le_rfl hsize (by rw [hzero]; omega)
    rw [hzero, ← heq, List.drop_left] at hdrop
    rw [hscanned.composeRemaining_of_eq hlt htotal, if_pos (by omega), hskip, hiterate,
      h.forElements_eq _ hn hnsize (by rw [hdrop]; omega), hdrop]
    refine ⟨_, rfl, ?_, isSave_foldl _ hscanned.isSave_cursor⟩
    rw [flatMap_registers_foldl, hscanned.registers_cursor, heq]

/-- With enough rounds the instructions name every register of the vector once, and no other. -/
theorem saveOrRestoreRegisters_covers (h : regs.WellFormed) (doSaves : Bool) :
    ∃ bound, ∀ fuel, bound < fuel →
      ∃ cursor, saveOrRestoreRegisters regs doSaves fuel = some cursor ∧
        (∀ instr ∈ cursor, instr.isSave = doSaves) ∧
        ∀ n, (cursor.flatMap registers).count n = if regs.bit n then 1 else 0 := by
  refine ⟨(regs.members 0).length, fun fuel hfuel => ?_⟩
  obtain ⟨cursor, hcursor, hregisters, hsave⟩ :=
    saveOrRestoreRegisters_eq_some h doSaves hfuel
  refine ⟨cursor, hcursor, hsave, fun n => ?_⟩
  have hnodup : (regs.members 0).Nodup := (regs.members_pairwise 0).imp fun hlt => hlt.ne
  rw [hregisters, List.Nodup.count hnodup]
  exact if_congr (BitVector.mem_members h) rfl rfl

/-- Register 3, and the registers 5 and 6 that follow one another. -/
def threeRegisters : BitVector ⟨true, false⟩ := ((BitVector.new.set 3).set 5).set 6

theorem wellFormed_threeRegisters : threeRegisters.WellFormed :=
  ((BitVector.wellFormed_new.set (by decide) (by decide)).set (by decide) (by decide)).set
    (by decide) (by decide)

theorem saveOrRestoreRegisters_covers_three :
    ∃ bound, ∀ fuel, bound < fuel →
      ∃ cursor, saveOrRestoreRegisters threeRegisters true fuel = some cursor ∧
        (∀ instr ∈ cursor, instr.isSave = true) ∧
        ∀ n, (cursor.flatMap registers).count n = if threeRegisters.bit n then 1 else 0 :=
  saveOrRestoreRegisters_covers wellFormed_threeRegisters true

example : saveOrRestoreRegisters threeRegisters true 4 =
    some [savePreservedRegister 3 (-1), composeSavesRestores 5 6 (-1) 3 true] := by decide

end saveOrRestoreRegisters

end OMR.Compiler
