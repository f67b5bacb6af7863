import OMR.Port.FormatRuns

/-!
# Where the output goes

Each writer but two stays inside the room it gets: the conversion of a character that gets no
place writes in front of it, and the string of a `%ls` can be pushed out of it by the padding on
its left.
-/

namespace OMR.Port.Format

instance (c : Conversion) : Decidable c.Unicode :=
  inferInstanceAs (Decidable (c.letter = 's' ∧ c.tag.l ∧ c.argument.pointer.address ≠ 0))

instance (c : Conversion) : Decidable c.EmptyChar :=
  inferInstanceAs (Decidable (c.letter = 'c' ∧ c.tag.l = false ∧
    stringText c.width.value c.precisionAmount.value [' '] c.tag = []))

section Unicode

/-- The encoding of a string. -/
def unicodeBytes (units : List (BitVec 16)) : List Char :=
  units.flatMap fun u => encodeUTF8Char u.toNat

/-- The longest prefix with an encoding that fits. -/
def fitting : ℕ → List (BitVec 16) → List (BitVec 16)
  | _, [] => []
  | room, u :: units =>
    if (encodeUTF8Char u.toNat).length ≤ room then
      u :: fitting (room - (encodeUTF8Char u.toNat).length) units
    else []

theorem length_unicodeBytes_cons (u : BitVec 16) (units : List (BitVec 16)) :
    (unicodeBytes (u :: units)).length =
      (encodeUTF8Char u.toNat).length + (unicodeBytes units).length :=
  List.length_append

theorem length_unicodeBytes_fitting (room : ℕ) (units : List (BitVec 16)) :
    (unicodeBytes (fitting room units)).length ≤ room := by
  induction units generalizing room with
  | nil => exact Nat.zero_le room
  | cons u units ih =>
    rw [fitting]
    split
    · have := ih (room - (encodeUTF8Char u.toNat).length)
      rw [length_unicodeBytes_cons]
      omega
    · exact Nat.zero_le room

theorem fitting_prefix (room : ℕ) (units : List (BitVec 16)) :
    units.take (fitting room units).length = fitting room units := by
  induction units generalizing room with
  | nil => rfl
  | cons u units ih =>
    rw [fitting]
    split
    · rw [List.length_cons, List.take_succ_cons, ih]
    · rfl

/-- Every unit of 16 bits has an encoding of one to three bytes. -/
theorem length_encodeUTF8Char (u : BitVec 16) :
    1 ≤ (encodeUTF8Char u.toNat).length ∧ (encodeUTF8Char u.toNat).length ≤ 3 := by
  have hlt := u.isLt
  rw [encodeUTF8Char]
  split_ifs
  · simp
  · simp
  · simp
  · omega

theorem length_fitting_le (room : ℕ) (units : List (BitVec 16)) :
    (fitting room units).length ≤ (unicodeBytes (fitting room units)).length := by
  induction units generalizing room with
  | nil => exact le_rfl
  | cons u units ih =>
    rw [fitting]
    split
    · have := ih (room - (encodeUTF8Char u.toNat).length)
      have := (length_encodeUTF8Char u).1
      rw [length_unicodeBytes_cons, List.length_cons]
      omega
    · exact le_rfl

/-- While the counts do not reach 2^32, the characters that fit are counted. -/
theorem countUnicode_eq (bytes : ℕ) {room precision chars : ℕ} {units : List (BitVec 16)}
    (hroom : room + 3 < 2 ^ 32) (hbytes : bytes ≤ room) (hchars : chars ≤ bytes)
    (hprecision : precision ≤ chars + units.length) :
    countUnicode room precision chars bytes units =
      some (chars + (fitting (room - bytes) (units.take (precision - chars))).length,
        bytes + (unicodeBytes (fitting (room - bytes) (units.take (precision - chars)))).length) := by
  induction units generalizing chars bytes with
  | nil =>
    have hdone : ¬chars < precision := by
      rw [List.length_nil] at hprecision
      omega
    rw [countUnicode, if_neg hdone, List.take_nil]
    rfl
  | cons u units ih =>
    rw [countUnicode]
    split
    · next hlt =>
      have hlen := length_encodeUTF8Char u
      rw [show precision - chars = precision - (chars + 1) + 1 by omega, List.take_succ_cons,
        fitting, Nat.mod_eq_of_lt (by omega)]
      by_cases hfit : (encodeUTF8Char u.toNat).length ≤ room - bytes
      · rw [if_neg (by omega), if_pos hfit, Nat.mod_eq_of_lt (by omega), ih _ (by omega) (by omega)
          (by rw [List.length_cons] at hprecision; omega), length_unicodeBytes_cons,
          List.length_cons, Nat.sub_sub]
        congr 2
        · omega
        · omega
      · rw [if_pos (by omega), if_neg hfit]
        rfl
    · next hge =>
      rw [show precision - chars = 0 by omega, List.take_zero]
      rfl

end Unicode

namespace Conversion

variable (c : Conversion)

/-- What the precision takes of the string of a `%ls`. -/
def units : List (BitVec 16) :=
  c.argument.pointer.units.take (available c.precisionAmount.value c.argument.pointer.units)

/-- The text of a `%ls` in a room. -/
def unicodeText (room : ℕ) : List Char :=
  let bytes := unicodeBytes (fitting room c.units)
  let padding := paddings c.width.value bytes.length c.tag
  List.replicate padding.1 ' ' ++ bytes ++ List.replicate padding.2 ' '

/-- What a `%ls` adds to the index, and what it writes from there on. -/
def unicodeWrites (room : ℕ) : Option (ℕ × List Char) :=
  (countUnicode room (available c.precisionAmount.value c.argument.pointer.units) 0 0
    c.argument.pointer.units).map fun (chars, bytes) =>
      let padding := paddings c.width.value bytes c.tag
      let left := min padding.1 room
      let right := min padding.2 (room - left - bytes)
      (left + bytes + right, List.replicate left ' ' ++
        unicodeBytes (c.argument.pointer.units.take chars) ++ List.replicate right ' ')

/-- The string of a `%ls` stays in the room. In a room of which the size wraps around with a
character, the counts of the source can do so. -/
def Fits (room : ℕ) : Prop :=
  if room + 3 < 2 ^ 32 then
    c.tag.dash = true ∨ c.width.value = noValue ∨ c.width.value ≤ room ∨ fitting room c.units = []
  else ∃ used text, c.unicodeWrites room = some (used, text) ∧ text.length ≤ room

/-- What a conversion adds to the index. -/
def used (room : ℕ) : ℕ :=
  if c.EmptyChar then 0
  else if c.Unicode then
    if room + 3 < 2 ^ 32 then min (c.unicodeText room).length room
    else ((c.unicodeWrites room).map Prod.fst).getD 0
  else min c.text.length room

/-- At an index, with a room behind it, a conversion stays inside the buffer. -/
structure Inside (index room : ℕ) : Prop where
  char : c.EmptyChar → 0 < index
  unicode : c.Unicode → c.Fits room

end Conversion

section Unicode

variable {c : Conversion} {room : ℕ}

theorem unicodeWrites_eq (hroom : room + 3 < 2 ^ 32) :
    c.unicodeWrites room =
      let bytes := unicodeBytes (fitting room c.units)
      let padding := paddings c.width.value bytes.length c.tag
      let left := min padding.1 room
      let right := min padding.2 (room - left - bytes.length)
      some (left + bytes.length + right,
        List.replicate left ' ' ++ bytes ++ List.replicate right ' ') := by
  have hcount := countUnicode_eq 0 hroom (Nat.zero_le room) le_rfl
    (show available c.precisionAmount.value c.argument.pointer.units ≤
      0 + c.argument.pointer.units.length by rw [Nat.zero_add]; exact available_le _ _)
  simp only [Nat.zero_add, Nat.sub_zero] at hcount
  have htake : c.argument.pointer.units.take (fitting room c.units).length =
      fitting room c.units := by
    have hprefix := fitting_prefix room c.units
    have hle : (fitting room c.units).length ≤
        available c.precisionAmount.value c.argument.pointer.units := by
      have := congrArg List.length hprefix
      rw [List.length_take, Conversion.units, List.length_take] at this
      rw [Conversion.units]
      omega
    rw [Conversion.units] at hle hprefix ⊢
    rwa [List.take_take, min_eq_left hle] at hprefix
  rw [Conversion.unicodeWrites, hcount]
  simp only [Option.map_some]
  rw [show c.argument.pointer.units.take (available c.precisionAmount.value
    c.argument.pointer.units) = c.units from rfl, htake]

/-- The closed form of the condition, where nothing wraps around. -/
theorem length_unicodeWrites_le_iff (hroom : room + 3 < 2 ^ 32) {used : ℕ} {text : List Char}
    (hwrites : c.unicodeWrites room = some (used, text)) :
    text.length = used ∧ (used ≤ room ↔ c.Fits room) ∧
      (c.Fits room → used = min (c.unicodeText room).length room) := by
  rw [unicodeWrites_eq hroom] at hwrites
  obtain ⟨hused, htext⟩ := Prod.mk.inj (Option.some_inj.mp hwrites)
  have hle := length_unicodeBytes_fitting room c.units
  have hempty : fitting room c.units = [] ↔ (unicodeBytes (fitting room c.units)).length = 0 := by
    have := length_fitting_le room c.units
    rw [← List.length_eq_zero_iff]
    refine ⟨fun h => ?_, fun h => by omega⟩
    rw [List.length_eq_zero_iff.mp h]
    rfl
  rw [Conversion.Fits, if_pos hroom, hempty, Conversion.unicodeText]
  simp only [List.length_append, List.length_replicate, ← htext, ← hused]
  generalize (unicodeBytes (fitting room c.units)).length = bytes at *
  refine ⟨trivial, ?_⟩
  simp only [paddings]
  by_cases hwidth : c.width.value = noValue
  · simp [hwidth, hle]
  · simp only [hwidth, if_false, false_or]
    by_cases hdash : c.tag.dash = true
    · simp only [hdash, if_true, true_or]
      split_ifs
      all_goals simp only [iff_true, forall_const]
      all_goals omega
    · simp only [hdash, Bool.false_eq_true, if_false, false_or]
      split_ifs
      all_goals simp only []
      all_goals omega

variable {data : FormatData} {spec : Specifier} {rest : List Char} {buf : Buffer} {m : Memory}

theorem writeSpec_unicode (hfilled : Filled data spec c rest) (hunicode : c.Unicode) :
    writeSpec data spec buf room m =
      (c.unicodeWrites room).map fun (used, text) => (used, storeAll buf 0 text m) := by
  obtain ⟨hs, hl, hnull⟩ := hunicode
  have hwriter : writeSpec data spec buf room m = writeUnicodeStringToBuffer buf room
      c.width.value c.precisionAmount.value c.argument.pointer.units c.tag m := by
    simp only [writeSpec, hfilled.type_eq, hfilled.width_eq, hfilled.precision_eq,
      hfilled.argument_eq, hfilled.tag_eq, Value.number_u64, hs]
    rw [if_neg (by decide), if_neg (by decide), if_neg (by decide), if_neg (by decide),
      if_neg (by decide), if_neg (by decide), if_pos trivial, if_pos hnull, if_pos hl]
  rw [hwriter, writeUnicodeStringToBuffer, Conversion.unicodeWrites, Option.map_map]
  congr 1
  funext counts
  simp only [Function.comp, storeAll_append, List.length_append, List.length_replicate, Int.zero_add,
    Nat.cast_add]
  rfl

theorem writeSpec_emptyChar (hfilled : Filled data spec c rest) (hempty : c.EmptyChar) :
    writeSpec data spec buf room m =
      some (0, store buf (-1) (toChar c.argument.number) m) := by
  obtain ⟨hc, hl, htext⟩ := hempty
  have hwrites := writeStringToBuffer_writes c.width.value c.precisionAmount.value [' '] c.tag buf
    room m
  rw [htext] at hwrites
  have hused : (writeStringToBuffer buf room c.width.value c.precisionAmount.value [' '] c.tag m).1 =
      0 := by
    rw [hwrites.used_eq, List.length_nil, Nat.zero_min]
  have hmemory : (writeStringToBuffer buf room c.width.value c.precisionAmount.value [' ']
      c.tag m).2 = m := by
    funext o
    refine hwrites.outside o fun base _ => ?_
    rw [hused]
    omega
  have hl' : ¬c.tag.l = true := Bool.eq_false_iff.mp hl
  simp only [writeSpec, hfilled.type_eq, hfilled.width_eq, hfilled.precision_eq,
    hfilled.argument_eq, hfilled.tag_eq, Value.number_u64, hc]
  rw [if_neg (by decide), if_neg (by decide), if_neg (by decide), if_neg (by decide),
    if_neg (by decide), if_pos trivial, if_neg hl', hused, hmemory, if_pos (Nat.zero_le room)]
  rfl

end Unicode

section Loop

/-- What a piece adds to the index. -/
def Piece.used (room : ℕ) : Piece → ℕ
  | .conversion c => c.used room
  | _ => 1

def Piece.Inside (index room : ℕ) : Piece → Prop
  | .conversion c => c.Inside index room
  | _ => True

/-- Every piece that is reached, from an index on, stays inside the buffer. -/
def Inside (bufLen : ℕ) : ℕ → List Piece → Prop
  | _, [] => True
  | index, piece :: pieces => index < bufLen - 1 →
    piece.Inside index (bufLen - index) ∧
      Inside bufLen (index + piece.used (bufLen - index)) pieces

/-- Nothing was written outside of the buffer. -/
def InRange (base : ℤ) (bufLen : ℕ) (m : Memory) : Prop :=
  ∀ o, m o ≠ none → base ≤ o ∧ o < base + bufLen

/-- What was written stays written. -/
def Grows (m m' : Memory) : Prop := ∀ o, m o ≠ none → m' o ≠ none

theorem Grows.refl (m : Memory) : Grows m m := fun _ h => h

theorem Grows.trans {m m' m'' : Memory} (h : Grows m m') (h' : Grows m' m'') : Grows m m'' :=
  fun o ho => h' o (h o ho)

theorem grows_storeAll (buf : Buffer) (i : ℤ) (text : List Char) (m : Memory) :
    Grows m (storeAll buf i text m) := by
  intro o ho
  rw [storeAll_eq]
  cases window buf i text o with
  | none => exact ho
  | some c => exact Option.some_ne_none c

theorem grows_store (buf : Buffer) (i : ℤ) (c : Char) (m : Memory) :
    Grows m (store buf i c m) :=
  grows_storeAll buf i [c] m

theorem Writes.grows {buf : Buffer} {room used : ℕ} {text : List Char} {m m' : Memory}
    (h : Writes buf room text m m' used) : Grows m m' := by
  intro o ho
  by_cases hin : ∃ base, buf = some base ∧ base ≤ o ∧ o < base + used
  · obtain ⟨base, hbase, hlow, hhigh⟩ := hin
    obtain ⟨p, rfl⟩ : ∃ p : ℕ, o = base + p := ⟨(o - base).toNat, by omega⟩
    obtain ⟨c, hc, -⟩ := h.inside base hbase p (by omega)
    exact hc ▸ Option.some_ne_none c
  · rw [h.outside o]
    · exact ho
    · intro base hbase
      by_contra hnot
      exact hin ⟨base, hbase, by omega⟩

/-- What the loop does with a piece: it gives an amount to add to the index and the memory behind
the piece, or nothing. -/
structure PieceStep (base : ℤ) (bufLen index : ℕ) (piece : Piece) (m : Memory)
    (step : Option (ℕ × Memory)) : Prop where
  grows : ∀ used m', step = some (used, m') → Grows m m'
  inside : piece.Inside index (bufLen - index) →
    ∃ m', step = some (piece.used (bufLen - index), m') ∧
      ∀ o, o < base ∨ base + bufLen ≤ o → m' o = m o
  outside : ¬piece.Inside index (bufLen - index) →
    ∀ used m', step = some (used, m') → ¬InRange base bufLen m'

variable {base : ℤ} {bufLen index : ℕ} {m : Memory}

/-- A writer that stays in its room. -/
theorem Writes.pieceStep {piece : Piece} {used : ℕ} {text : List Char} {m' : Memory}
    (h : Writes (some (base + index)) (bufLen - index) text m m' used)
    (hused : used = piece.used (bufLen - index)) (hinside : piece.Inside index (bufLen - index)) :
    PieceStep base bufLen index piece m (some (used, m')) where
  grows := by
    rintro used' m'' hstep
    obtain ⟨rfl, rfl⟩ := Prod.mk.inj (Option.some_inj.mp hstep)
    exact h.grows
  inside := by
    intro _
    refine ⟨m', by rw [hused], fun o ho => h.outside o fun b hb => ?_⟩
    have := h.used_eq
    cases Option.some_inj.mp hb
    omega
  outside := fun hnot => absurd hinside hnot

theorem emptyChar_pieceStep {c : Conversion} (hempty : c.EmptyChar) (hindex : index < bufLen - 1)
    (x : Char) :
    PieceStep base bufLen index (.conversion c) m
      (some (0, store (some (base + index)) (-1) x m)) where
  grows := by
    rintro used m' hstep
    obtain ⟨rfl, rfl⟩ := Prod.mk.inj (Option.some_inj.mp hstep)
    exact grows_store _ _ _ _
  inside := by
    intro hinside
    have hpos := hinside.char hempty
    refine ⟨_, by rw [Piece.used, Conversion.used, if_pos hempty], fun o ho => ?_⟩
    exact Function.update_of_ne (by omega) ..
  outside := by
    rintro hnot used m' hstep hrange
    obtain ⟨rfl, rfl⟩ := Prod.mk.inj (Option.some_inj.mp hstep)
    have hunicode : ¬c.Unicode := by
      rintro ⟨hs, -, -⟩
      have := hs.symm.trans hempty.1
      exact absurd this (by decide)
    have hzero : index = 0 := by
      by_contra hne
      exact hnot ⟨fun _ => Nat.pos_of_ne_zero hne, fun h => absurd h hunicode⟩
    have hwritten : store (some (base + index)) (-1) x m (base + index + -1) ≠ none := by
      rw [store, Function.update_self]
      exact Option.some_ne_none x
    have := hrange _ hwritten
    omega

theorem unicode_pieceStep {c : Conversion} (hunicode : c.Unicode) (hindex : index ≤ bufLen) :
    PieceStep base bufLen index (.conversion c) m ((c.unicodeWrites (bufLen - index)).map
      fun (used, text) => (used, storeAll (some (base + index)) 0 text m)) := by
  have hempty : ¬c.EmptyChar := by
    rintro ⟨hc, -, -⟩
    have := hc.symm.trans hunicode.1
    exact absurd this (by decide)
  have hinside : c.Inside index (bufLen - index) ↔ c.Fits (bufLen - index) :=
    ⟨fun h => h.unicode hunicode, fun h => ⟨fun he => absurd he hempty, fun _ => h⟩⟩
  have hfits : c.Fits (bufLen - index) → ∃ text,
      c.unicodeWrites (bufLen - index) = some (c.used (bufLen - index), text) ∧
        text.length ≤ bufLen - index := by
    intro h
    rw [Conversion.used, if_neg hempty, if_pos hunicode]
    by_cases hroom : bufLen - index + 3 < 2 ^ 32
    · obtain ⟨hlen, hle, hused⟩ :=
        length_unicodeWrites_le_iff hroom (unicodeWrites_eq (c := c) hroom)
      refine ⟨_, ?_, hlen.trans_le (hle.mpr h)⟩
      rw [if_pos hroom, ← hused h]
      exact unicodeWrites_eq hroom
    · rw [if_neg hroom]
      rw [Conversion.Fits, if_neg hroom] at h
      obtain ⟨used, text, hwrites, hlen⟩ := h
      exact ⟨text, by rw [hwrites]; rfl, hlen⟩
  refine ⟨fun used m' hstep => ?_, fun h => ?_, fun hnot used m' hstep hrange => ?_⟩
  · obtain ⟨⟨used, text⟩, -, heq⟩ := Option.map_eq_some_iff.mp hstep
    obtain ⟨rfl, rfl⟩ := Prod.mk.inj heq
    exact grows_storeAll _ _ _ _
  · obtain ⟨text, hwrites, hlen⟩ := hfits (hinside.mp h)
    refine ⟨_, by rw [hwrites]; rfl, fun o ho => ?_⟩
    rw [storeAll_eq, window_eq_none, Option.none_or]
    rintro b hb
    cases Option.some_inj.mp hb
    omega
  · obtain ⟨⟨used, text⟩, hwrites, heq⟩ := Option.map_eq_some_iff.mp hstep
    obtain ⟨rfl, rfl⟩ := Prod.mk.inj heq
    have hlong : bufLen - index < text.length := by
      by_contra hle
      refine hnot (hinside.mpr ?_)
      by_cases hroom : bufLen - index + 3 < 2 ^ 32
      · obtain ⟨hlen, hiff, -⟩ := length_unicodeWrites_le_iff hroom hwrites
        exact hiff.mp (by omega)
      · rw [Conversion.Fits, if_neg hroom]
        exact ⟨used, text, hwrites, by omega⟩
    -- The character behind the room.
    have hget : text[bufLen - index]? = some text[bufLen - index] := List.getElem?_eq_getElem hlong
    have hwritten : storeAll (some (base + index)) 0 text m
        (base + index + (bufLen - index : ℕ)) ≠ none := by
      rw [storeAll_eq, window_eq_some hget]
      exact Option.some_ne_none _
    have := hrange _ hwritten
    omega

/-- Each piece takes such a step, and the loop goes on behind it. -/
theorem writeFormat_pieceStep (base : ℤ) (m : Memory) (fuel : ℕ) {data : FormatData}
    {specIndex : ℕ} {piece : Piece} {pieces : List Piece} (hwf : piece.WellFormed)
    (hfilled : FilledFrom data specIndex (piece :: pieces)) (hindex : index < bufLen - 1) :
    ∃ step, PieceStep base bufLen index piece m step ∧
      writeFormat data (some base) bufLen (fuel + 1) (render (piece :: pieces)) specIndex index m =
        step.bind fun (used, m) =>
          writeFormat data (some base) bufLen fuel (render pieces) (piece.next specIndex)
            (index + used) m := by
  by_cases hplain : ∀ c, piece = .conversion c → ¬c.Unicode ∧ ¬c.EmptyChar
  · obtain ⟨used, m', hwrites, hstep⟩ :=
      writeFormat_cons (some base) fuel m hwf hplain hfilled hindex
    have hwrites : Writes (some (base + index)) (bufLen - index) piece.text m m' used := hwrites
    have hused : used = piece.used (bufLen - index) ∧ piece.Inside index (bufLen - index) := by
      rw [hwrites.used_eq]
      cases piece with
      | literal c => exact ⟨min_eq_left (by change 1 ≤ _; omega), trivial⟩
      | percent => exact ⟨min_eq_left (by change 1 ≤ _; omega), trivial⟩
      | conversion c =>
        obtain ⟨hunicode, hempty⟩ := hplain c rfl
        refine ⟨?_, fun h => absurd h hempty, fun h => absurd h hunicode⟩
        rw [Piece.used, Conversion.used, if_neg hempty, if_neg hunicode]
        rfl
    exact ⟨_, hwrites.pieceStep hused.1 hused.2, hstep⟩
  · push Not at hplain
    obtain ⟨c, rfl, hc⟩ := hplain
    have hspecifier := hfilled 0 c (render pieces) rfl
    refine ⟨_, ?_, writeFormat_conversion hwf hfilled hindex⟩
    by_cases hunicode : c.Unicode
    · rw [show specIndex = specIndex + 0 from rfl, writeSpec_unicode hspecifier hunicode]
      exact unicode_pieceStep hunicode (by omega)
    · rw [show specIndex = specIndex + 0 from rfl, writeSpec_emptyChar hspecifier (hc hunicode)]
      exact emptyChar_pieceStep (hc hunicode) hindex _

theorem writeFormat_grows {data : FormatData} {specIndex fuel : ℕ} {pieces : List Piece}
    (hwf : ∀ piece ∈ pieces, piece.WellFormed) (hfilled : FilledFrom data specIndex pieces)
    (hfuel : (render pieces).length < fuel) {index' : ℕ} {m' : Memory}
    (hrun : writeFormat data (some base) bufLen fuel (render pieces) specIndex index m =
      some (index', m')) : Grows m m' := by
  obtain ⟨fuel, rfl⟩ : ∃ n, fuel = n + 1 := ⟨fuel - 1, by omega⟩
  induction pieces generalizing specIndex index fuel m with
  | nil =>
    obtain ⟨-, rfl⟩ := Prod.mk.inj (Option.some_inj.mp hrun)
    exact Grows.refl m
  | cons piece pieces ih =>
    by_cases hgo : index < bufLen - 1
    · have hshort := length_render_cons piece pieces
      obtain ⟨fuel, rfl⟩ : ∃ n, fuel = n + 1 := ⟨fuel - 1, by omega⟩
      obtain ⟨step, hstep, hnext⟩ := writeFormat_pieceStep base m (fuel + 1)
        (hwf _ List.mem_cons_self) hfilled hgo
      rw [hnext] at hrun
      obtain ⟨⟨used, m₁⟩, hused, hrest⟩ := Option.bind_eq_some_iff.mp hrun
      exact (hstep.grows used m₁ hused).trans
        (ih (fun p h => hwf p (List.mem_cons_of_mem _ h)) hfilled.tail fuel (by omega) hrest)
    · rw [writeFormat_stop hgo] at hrun
      obtain ⟨-, rfl⟩ := Prod.mk.inj (Option.some_inj.mp hrun)
      exact Grows.refl m

/-- The loop stays inside the buffer if every piece that it reaches does so, and only then. -/
theorem writeFormat_inRange_iff {data : FormatData} {specIndex fuel : ℕ} {pieces : List Piece}
    (hwf : ∀ piece ∈ pieces, piece.WellFormed) (hfilled : FilledFrom data specIndex pieces)
    (hfuel : (render pieces).length < fuel) (hm : InRange base bufLen m) :
    (∃ index' m', writeFormat data (some base) bufLen fuel (render pieces) specIndex index m =
      some (index', m') ∧ InRange base bufLen m') ↔ Inside bufLen index pieces := by
  obtain ⟨fuel, rfl⟩ : ∃ n, fuel = n + 1 := ⟨fuel - 1, by omega⟩
  induction pieces generalizing specIndex index fuel m with
  | nil => exact iff_of_true ⟨index, m, rfl, hm⟩ trivial
  | cons piece pieces ih =>
    rw [Inside]
    by_cases hgo : index < bufLen - 1
    · have hshort := length_render_cons piece pieces
      obtain ⟨fuel, rfl⟩ : ∃ n, fuel = n + 1 := ⟨fuel - 1, by omega⟩
      have hwfPieces : ∀ p ∈ pieces, p.WellFormed := fun p h => hwf p (List.mem_cons_of_mem _ h)
      obtain ⟨step, hstep, hnext⟩ := writeFormat_pieceStep base m (fuel + 1)
        (hwf _ List.mem_cons_self) hfilled hgo
      rw [hnext, forall_prop_of_true hgo]
      by_cases hinside : piece.Inside index (bufLen - index)
      · obtain ⟨m₁, hused, hkeeps⟩ := hstep.inside hinside
        have hm₁ : InRange base bufLen m₁ := by
          intro o ho
          by_contra hout
          rw [hkeeps o (by omega)] at ho
          exact hout (hm o ho)
        rw [and_iff_right hinside, ← ih hwfPieces hfilled.tail hm₁ fuel (by omega), hused]
        rfl
      · refine iff_of_false ?_ fun h => hinside h.1
        rintro ⟨index', m', hrun, hrange⟩
        obtain ⟨⟨used, m₁⟩, hused, hrest⟩ := Option.bind_eq_some_iff.mp hrun
        have hgrows := writeFormat_grows hwfPieces hfilled.tail (by omega) hrest
        exact hstep.outside hinside used m₁ hused fun o ho => hrange o (hgrows o ho)
    · rw [writeFormat_stop hgo]
      exact iff_of_true ⟨index, m, rfl, hm⟩ fun h => absurd h hgo

end Loop

/-- The call returns, has written inside the buffer only, and the NUL behind the output is there
as well. -/
def StaysInBuffer (base : ℤ) (bufLen : ℕ) (format : List Char) (args : List Value) : Prop :=
  ∃ index m, vprintf (some base) bufLen format args = some (index, m) ∧
    index < bufLen ∧ m (base + index) = some nul ∧ InRange base bufLen m

theorem staysInBuffer_iff {pieces : List Piece} (hwf : WellFormed pieces) (base : ℤ) {bufLen : ℕ}
    (hbufLen : 1 ≤ bufLen) :
    StaysInBuffer base bufLen (render pieces) (arguments pieces) ↔ Inside bufLen 0 pieces := by
  obtain ⟨parsed, data, hparse, hread, hfilled⟩ := parse_render hwf
  have hfilledFrom : FilledFrom data 0 pieces := by
    intro k c rest hk
    rw [Nat.zero_add]
    exact hfilled k c rest hk
  have hcall : vprintf (some base) bufLen (render pieces) (arguments pieces) =
      (writeFormat data (some base) bufLen ((render pieces).length + 1) (render pieces) 0 0
        fun _ => none).map fun (index, m) =>
          (min index (bufLen - 1), store (some base) (min index (bufLen - 1) : ℕ) nul m) := by
    have hsome : (some base : Buffer).isNone = false := rfl
    simp only [vprintf, hparse, hread, Option.bind_some, writeFormattedString, hsome,
      Bool.false_eq_true, if_false, show bufLen ≠ 0 by omega]
  have hempty : InRange base bufLen fun _ => none := fun _ h => absurd rfl h
  rw [← writeFormat_inRange_iff hwf.piece hfilledFrom (Nat.lt_succ_self _) hempty]
  constructor
  · rintro ⟨index, m, hreturn, -, -, hrange⟩
    rw [hcall] at hreturn
    obtain ⟨⟨index', m'⟩, hrun, heq⟩ := Option.map_eq_some_iff.mp hreturn
    obtain ⟨rfl, rfl⟩ := Prod.mk.inj heq
    exact ⟨index', m', hrun, fun o ho => hrange o (grows_store _ _ _ _ o ho)⟩
  · rintro ⟨index', m', hrun, hrange⟩
    rw [StaysInBuffer, hcall, hrun]
    refine ⟨_, _, rfl, by omega, Function.update_self .., fun o ho => ?_⟩
    by_cases hnul : o = base + (min index' (bufLen - 1) : ℕ)
    · omega
    · rw [store, Function.update_of_ne hnul] at ho
      exact hrange o ho

theorem staysInBuffer_iff_leftAligned :
    StaysInBuffer 0 3 (render leftAligned) (arguments leftAligned) := by
  refine (staysInBuffer_iff leftAligned_wellFormed 0 (by decide)).mpr fun _ => ⟨trivial, fun _ => ?_⟩
  exact ⟨⟨fun h => absurd h.1 (by decide), fun h => absurd h.1 (by decide)⟩, trivial⟩

/-- The format `%.0c`. -/
def emptyChar : List Piece :=
  [.conversion ⟨none, .number [], some (.number ['0']), .none, 'c', .u64 65⟩]

/-- The format `%20ls`, for a string of one character. -/
def padded : List Piece :=
  [.conversion ⟨none, .number ['2', '0'], none, .l, 's', .ptr ⟨4096, [], [65]⟩⟩]

/-- The character goes in front of the buffer, or behind the padding that fills it. -/
theorem vprintf_leaves_buffer :
    (WellFormed emptyChar ∧ ¬StaysInBuffer 0 8 (render emptyChar) (arguments emptyChar)) ∧
      WellFormed padded ∧ ¬StaysInBuffer 0 8 (render padded) (arguments padded) := by
  refine ⟨⟨⟨?_, by decide⟩, ?_⟩, ⟨?_, by decide⟩, ?_⟩
  · intro piece hpiece
    cases List.mem_singleton.mp hpiece
    exact ⟨⟨forall_mem_of_all (by decide), by decide⟩, ⟨forall_mem_of_all (by decide), by decide⟩,
      by decide, .u32, by decide, by decide⟩
  · rintro ⟨index, m, hreturn, -, -, hrange⟩
    have hwritten : (vprintf (some 0) 8 (render emptyChar) (arguments emptyChar)).map
        (fun result => result.2 (-1)) = some (some 'A') := by
      decide +kernel
    rw [hreturn] at hwritten
    have hwritten : m (-1) = some 'A' := Option.some_inj.mp hwritten
    have := hrange (-1) (by rw [hwritten]; exact Option.some_ne_none _)
    omega
  · intro piece hpiece
    cases List.mem_singleton.mp hpiece
    exact ⟨⟨forall_mem_of_all (by decide), by decide⟩, ⟨forall_mem_of_all (by decide), by decide⟩,
      by decide, .ptr, by decide, by decide⟩
  · rintro ⟨index, m, hreturn, -, -, hrange⟩
    have hwritten : (vprintf (some 0) 8 (render padded) (arguments padded)).map
        (fun result => result.2 8) = some (some 'A') := by
      decide +kernel
    rw [hreturn] at hwritten
    have hwritten : m 8 = some 'A' := Option.some_inj.mp hwritten
    have := hrange 8 (by rw [hwritten]; exact Option.some_ne_none _)
    omega

end OMR.Port.Format
