import OMR.Port.FormatSyntax
import OMR.Port.FormatTexts

/-!
# Formatted output into buffers of every size

The full output of a format does not depend on the buffer. A call with a buffer writes as much
of it as fits in front of the NUL, and a call without a buffer returns the room that it needs.
-/

namespace OMR.Port.Format

/-- The full text of a conversion, except for the string of a `%ls`. -/
def Conversion.text (c : Conversion) : List Char :=
  let width := c.width.value
  let precision := c.precisionAmount.value
  let int := intText width precision c.argument.number c.tag
  let string text := stringText width precision text c.tag
  if c.letter = 'i' ∨ c.letter = 'd' then int true digitsDec
  else if c.letter = 'u' then int false digitsDec
  else if c.letter = 'x' then int false digitsHexLower
  else if c.letter = 'X' then int false digitsHexUpper
  else if c.letter = 'p' then
    intText 16 16 c.argument.pointer.address {} false digitsHexUpper
  else if c.letter = 'c' then
    if c.tag.l then string (encodeUTF8Char c.argument.number)
    else (string [' ']).dropLast ++ [toChar c.argument.number]
  else if c.argument.pointer.address ≠ 0 then string c.argument.pointer.chars
  else string ['<', 'N', 'U', 'L', 'L', '>']

/-- A conversion of a number, a pointer or a string of bytes. -/
def Conversion.Plain (c : Conversion) : Prop :=
  c.letter ≠ 'c' ∧ (c.letter = 's' → c.tag.l = false)

/-- The conversion of a string of 16-bit units. -/
def Conversion.Unicode (c : Conversion) : Prop :=
  c.letter = 's' ∧ c.tag.l ∧ c.argument.pointer.address ≠ 0

/-- The conversion of a character that gets no place. -/
def Conversion.EmptyChar (c : Conversion) : Prop :=
  c.letter = 'c' ∧ c.tag.l = false ∧
    stringText c.width.value c.precisionAmount.value [' '] c.tag = []

theorem Conversion.Plain.not_unicode {c : Conversion} (h : c.Plain) : ¬c.Unicode :=
  fun ⟨hs, hl, _⟩ => by simp [h.2 hs] at hl

theorem Conversion.Plain.not_emptyChar {c : Conversion} (h : c.Plain) : ¬c.EmptyChar :=
  fun hempty => h.1 hempty.1

def Piece.text : Piece → List Char
  | .literal c => [c]
  | .percent => ['%']
  | .conversion c => c.text

def Piece.Plain : Piece → Prop
  | .conversion c => c.Plain
  | _ => True

/-- The full output. -/
def fullText (pieces : List Piece) : List Char := pieces.flatMap Piece.text

section Conversions

variable {data : FormatData} {spec : Specifier} {c : Conversion} {rest : List Char}
  {buf : Buffer} {room : ℕ} {m : Memory}

@[simp] theorem Value.number_u64 (n : ℕ) : (Value.u64 n).number = n := rfl

theorem writeSpec_writes (hfilled : Filled data spec c rest) (hwf : c.WellFormed)
    (hunicode : ¬c.Unicode) (hempty : ¬c.EmptyChar) (hroom : 0 < room) : ∃ used m', writeSpec data spec buf room m = some (used, m') ∧
      Writes buf room c.text m m' used := by
  obtain ⟨type, hletterType, htakes⟩ := hwf.typed
  have hletter := mem_letters hletterType htakes
  simp only [writeSpec, hfilled.type_eq, hfilled.width_eq, hfilled.precision_eq,
    hfilled.argument_eq, hfilled.tag_eq, Value.number_u64, Conversion.text]
  by_cases hint : c.letter = 'i' ∨ c.letter = 'd'
  · rw [if_pos hint, if_pos hint]
    exact ⟨_, _, rfl, writeIntToBuffer_writes ..⟩
  rw [if_neg hint, if_neg hint]
  by_cases hu : c.letter = 'u'
  · rw [if_pos hu, if_pos hu]
    exact ⟨_, _, rfl, writeIntToBuffer_writes ..⟩
  rw [if_neg hu, if_neg hu]
  by_cases hx : c.letter = 'x'
  · rw [if_pos hx, if_pos hx]
    exact ⟨_, _, rfl, writeIntToBuffer_writes ..⟩
  rw [if_neg hx, if_neg hx]
  by_cases hX : c.letter = 'X'
  · rw [if_pos hX, if_pos hX]
    exact ⟨_, _, rfl, writeIntToBuffer_writes ..⟩
  rw [if_neg hX, if_neg hX]
  by_cases hp : c.letter = 'p'
  · rw [if_pos hp, if_pos hp]
    exact ⟨_, _, rfl, writeIntToBuffer_writes ..⟩
  rw [if_neg hp, if_neg hp]
  by_cases hc : c.letter = 'c'
  · rw [if_pos hc, if_pos hc]
    by_cases hl : c.tag.l = true
    · rw [if_pos hl, if_pos hl]
      exact ⟨_, _, rfl, writeStringToBuffer_writes ..⟩
    · rw [if_neg hl, if_neg hl]
      have hwrites := writeStringToBuffer_writes c.width.value c.precisionAmount.value [' ']
        c.tag buf room m
      have hused := hwrites.used_eq
      have hne : stringText c.width.value c.precisionAmount.value [' '] c.tag ≠ [] :=
        fun h => hempty ⟨hc, Bool.eq_false_iff.mpr hl, h⟩
      have hpos := List.length_pos_iff.mpr hne
      rw [if_pos (by omega)]
      exact ⟨_, _, rfl, hwrites.setLast (by omega) _⟩
  rw [if_neg hc, if_neg hc]
  have hs : c.letter = 's' := by
    simp only [letters, List.mem_cons, List.not_mem_nil, or_false] at hletter
    tauto
  rw [if_pos hs]
  by_cases hnull : c.argument.pointer.address ≠ 0
  · have hl : ¬c.tag.l = true := fun h => hunicode ⟨hs, h, hnull⟩
    rw [if_pos hnull, if_pos hnull, if_neg hl]
    exact ⟨_, _, rfl, writeStringToBuffer_writes ..⟩
  · rw [if_neg hnull, if_neg hnull]
    exact ⟨_, _, rfl, writeStringToBuffer_writes ..⟩

end Conversions

section Loop

variable {data : FormatData} {pieces : List Piece} {specIndex index length fuel : ℕ}
  {buf : Buffer} {m : Memory}

/-- The specifiers of the conversions, from the one numbered so on. -/
def FilledFrom (data : FormatData) (specIndex : ℕ) (pieces : List Piece) : Prop :=
  ∀ k c rest, (conversions pieces)[k]? = some (c, rest) →
    Filled data (data.spec (specIndex + k)) c rest

/-- The number of the specifier behind a piece. -/
def Piece.next (specIndex : ℕ) : Piece → ℕ
  | .conversion _ => specIndex + 1
  | _ => specIndex

theorem FilledFrom.tail {piece : Piece} (h : FilledFrom data specIndex (piece :: pieces)) :
    FilledFrom data (piece.next specIndex) pieces := by
  cases piece with
  | literal c => exact h
  | percent => exact h
  | conversion c =>
    intro k c' rest hk
    have := h (k + 1) c' rest hk
    rwa [show specIndex + (k + 1) = specIndex + 1 + k by omega] at this

/-- The room that a writer gets. -/
def roomAt (buf : Buffer) (length index : ℕ) : ℕ := if buf.isSome then length - index else length

theorem roomAt_pos (buf : Buffer) (hindex : index < length - 1) : 2 ≤ roomAt buf length index := by
  rw [roomAt]
  split <;> omega

theorem store_advance (i : ℤ) (c : Char) :
    store (advance buf index) i c m = store buf (index + i) c m := by
  cases buf with
  | none => rfl
  | some base => simp only [advance, Option.map_some, store, add_assoc]

/-- The loop at a conversion. -/
theorem writeFormat_conversion {c : Conversion} (hwf : c.WellFormed)
    (hfilled : FilledFrom data specIndex (.conversion c :: pieces)) (hindex : index < length - 1) :
    writeFormat data buf length (fuel + 1) (render (.conversion c :: pieces)) specIndex index m =
      (writeSpec data (data.spec specIndex) (advance buf index) (roomAt buf length index) m).bind
        fun (written, m) =>
          writeFormat data buf length fuel (render pieces) (specIndex + 1) (index + written) m := by
  have hrender : render (.conversion c :: pieces) =
      '%' :: (c.renderFront ++ c.letter :: render pieces) := by
    simp [render, Piece.render]
  obtain ⟨d, rest, hhead, hd⟩ := conversion_head hwf (render pieces)
  have htype := (hfilled 0 c (render pieces) rfl).type_eq
  rw [Nat.add_zero] at htype
  have hnot : ¬(d :: rest).head? = some '%' := fun h => hd (Option.some_inj.mp h)
  rw [hrender, hhead, writeFormat, if_pos hindex, if_pos rfl, if_neg hnot]
  simp only [htype]
  rfl

/-- The loop writes the text of a piece and goes on behind it. -/
theorem writeFormat_cons (buf : Buffer) (fuel : ℕ) (m : Memory) {piece : Piece} (hwf : piece.WellFormed)
    (hplain : ∀ c, piece = .conversion c → ¬c.Unicode ∧ ¬c.EmptyChar)
    (hfilled : FilledFrom data specIndex (piece :: pieces)) (hindex : index < length - 1) :
    ∃ used m', Writes (advance buf index) (roomAt buf length index) piece.text m m' used ∧
      writeFormat data buf length (fuel + 1) (render (piece :: pieces)) specIndex index m =
        writeFormat data buf length fuel (render pieces) (piece.next specIndex) (index + used)
          m' := by
  have hroom := roomAt_pos buf hindex
  have hone : ∀ c, Writes (advance buf index) (roomAt buf length index) [c] m
      (store buf index c m) 1 := by
    intro c
    have hwrites := Writes.of_take (advance buf index) (roomAt buf length index) [c] m
    have htake : [c].take (roomAt buf length index) = [c] :=
      List.take_of_length_le (by rw [List.length_singleton]; omega)
    rw [htake, List.length_singleton, min_eq_left (by omega), storeAll, storeAll, store_advance,
      Int.add_zero] at hwrites
    exact hwrites
  cases piece with
  | literal c =>
    refine ⟨1, _, hone c, ?_⟩
    change writeFormat data buf length (fuel + 1) (c :: render pieces) specIndex index m = _
    have hpercent : c ≠ '%' := hwf
    rw [writeFormat, if_pos hindex, if_neg hpercent]
    rfl
  | percent =>
    refine ⟨1, _, hone '%', ?_⟩
    change writeFormat data buf length (fuel + 1) ('%' :: '%' :: render pieces) specIndex index m = _
    have hhead : ('%' :: render pieces).head? = some '%' := rfl
    rw [writeFormat, if_pos hindex, if_pos rfl, if_pos hhead]
    rfl
  | conversion c =>
    obtain ⟨hunicode, hempty⟩ := hplain c rfl
    have hspecifier := hfilled 0 c (render pieces) rfl
    obtain ⟨used, m', hwrite, hwrites⟩ :=
      writeSpec_writes hspecifier hwf hunicode hempty (Nat.lt_of_lt_of_le Nat.two_pos hroom)
    refine ⟨used, m', hwrites, ?_⟩
    rw [writeFormat_conversion hwf hfilled hindex]
    exact congrArg (Option.bind · _) hwrite

theorem Piece.render_ne_nil (piece : Piece) : piece.render ≠ [] := by
  cases piece <;> exact List.cons_ne_nil _ _

theorem length_render_cons (piece : Piece) (pieces : List Piece) :
    (render pieces).length < (render (piece :: pieces)).length := by
  have hpos := List.length_pos_iff.mpr piece.render_ne_nil
  have : render (piece :: pieces) = piece.render ++ render pieces := rfl
  rw [this, List.length_append]
  omega

/-- The loop ends when the room is used up. -/
theorem writeFormat_stop (hindex : ¬index < length - 1) (format : List Char) :
    writeFormat data buf length (fuel + 1) format specIndex index m = some (index, m) := by
  cases format with
  | nil => rfl
  | cons c format => rw [writeFormat, if_neg hindex]

/-- Behind the characters that were there, the buffer has so much of the text as fits in front
of the last byte, and the rest of the memory is as it was. -/
structure Printed (base : ℤ) (length index index' : ℕ) (text : List Char) (m m' : Memory) :
    Prop where
  le : index ≤ index'
  bound : index' ≤ length
  reach : min index' (length - 1) = min (index + text.length) (length - 1)
  inside : ∀ p c, text[p]? = some c → index + p + 1 < length → m' (base + (index + p : ℕ)) = some c
  outside : ∀ o, o < base + index ∨ base + index' ≤ o → m' o = m o

theorem Printed.nil (base : ℤ) {length : ℕ} (hindex : index ≤ length) :
    Printed base length index index [] m m where
  le := le_rfl
  bound := hindex
  reach := rfl
  inside := by simp
  outside := fun _ _ => rfl

/-- Nothing more is written into the last byte. -/
theorem Printed.full (base : ℤ) {length : ℕ} (hindex : index ≤ length)
    (hfull : ¬index < length - 1) (text : List Char) :
    Printed base length index index text m m where
  le := le_rfl
  bound := hindex
  reach := by omega
  inside := fun p c _ hp => by omega
  outside := fun _ _ => rfl

/-- A text and the text behind it. -/
theorem Writes.printed {base : ℤ} {used index' : ℕ} {text rest : List Char} {m' m'' : Memory}
    (h : Writes (some (base + index)) (length - index) text m m' used) (hindex : index ≤ length)
    (hrest : Printed base length (index + used) index' rest m' m'') :
    Printed base length index index' (text ++ rest) m m'' where
  le := Nat.le_trans (Nat.le_add_right _ _) hrest.le
  bound := hrest.bound
  reach := by
    have := hrest.reach
    have := h.used_eq
    rw [List.length_append]
    omega
  inside := by
    intro p c hget hp
    have hused := h.used_eq
    rw [List.getElem?_append] at hget
    split at hget
    · next hlt =>
      obtain ⟨d, hd, htext⟩ := h.inside _ rfl p (by omega)
      rw [hrest.outside _ (.inl (by omega)),
        show base + ((index + p : ℕ) : ℤ) = base + index + p by omega, hd,
        ← htext (by omega), hget]
    · next hge =>
      have := hrest.inside (p - text.length) c hget (by omega)
      rwa [show index + used + (p - text.length) = index + p by omega] at this
  outside := by
    intro o ho
    have := hrest.le
    rw [hrest.outside o (by omega), h.outside o]
    rintro b hb
    cases Option.some_inj.mp hb
    omega

theorem writeFormat_printed (base : ℤ) (hwf : ∀ piece ∈ pieces, piece.WellFormed)
    (hplain : ∀ piece ∈ pieces, piece.Plain) (hfilled : FilledFrom data specIndex pieces)
    (hindex : index ≤ length) (hfuel : (render pieces).length < fuel) : ∃ index' m',
      writeFormat data (some base) length fuel (render pieces) specIndex index m =
        some (index', m') ∧ Printed base length index index' (fullText pieces) m m' := by
  obtain ⟨fuel, rfl⟩ : ∃ n, fuel = n + 1 := ⟨fuel - 1, by omega⟩
  induction pieces generalizing specIndex index fuel m with
  | nil => exact ⟨index, m, rfl, Printed.nil base hindex⟩
  | cons piece pieces ih =>
    by_cases hgo : index < length - 1
    · have hplainPiece : ∀ c, piece = .conversion c → ¬c.Unicode ∧ ¬c.EmptyChar := by
        rintro c rfl
        have := hplain _ List.mem_cons_self
        exact ⟨this.not_unicode, this.not_emptyChar⟩
      have hshort := length_render_cons piece pieces
      obtain ⟨fuel, rfl⟩ : ∃ n, fuel = n + 1 := ⟨fuel - 1, by omega⟩
      obtain ⟨used, m₁, hwrites, hstep⟩ := writeFormat_cons (some base) (fuel + 1) m
        (hwf _ List.mem_cons_self) hplainPiece hfilled hgo
      have hused : used = min piece.text.length (length - index) := hwrites.used_eq
      obtain ⟨index', m', hrun, hprinted⟩ := ih (fun p h => hwf p (List.mem_cons_of_mem _ h))
        (fun p h => hplain p (List.mem_cons_of_mem _ h)) hfilled.tail
        (show index + used ≤ length by omega) fuel (by omega)
      exact ⟨index', m', hstep.trans hrun, hwrites.printed hindex hprinted⟩
    · exact ⟨index, m, writeFormat_stop hgo _, Printed.full base hindex hgo _⟩

/-- Without a buffer, every writer has room for its whole text. -/
theorem writeFormat_null (hwf : ∀ piece ∈ pieces, piece.WellFormed)
    (hplain : ∀ piece ∈ pieces, piece.Plain) (hfilled : FilledFrom data specIndex pieces)
    (hindex : index + (fullText pieces).length < length - 1)
    (hfuel : (render pieces).length < fuel) : ∃ m',
      writeFormat data none length fuel (render pieces) specIndex index m =
        some (index + (fullText pieces).length, m') := by
  obtain ⟨fuel, rfl⟩ : ∃ n, fuel = n + 1 := ⟨fuel - 1, by omega⟩
  induction pieces generalizing specIndex index fuel m with
  | nil => exact ⟨m, rfl⟩
  | cons piece pieces ih =>
    have hplainPiece : ∀ c, piece = .conversion c → ¬c.Unicode ∧ ¬c.EmptyChar := by
      rintro c rfl
      have := hplain _ List.mem_cons_self
      exact ⟨this.not_unicode, this.not_emptyChar⟩
    have hlen : (fullText (piece :: pieces)).length =
        piece.text.length + (fullText pieces).length := List.length_append
    rw [hlen] at hindex
    have hshort := length_render_cons piece pieces
    obtain ⟨fuel, rfl⟩ : ∃ n, fuel = n + 1 := ⟨fuel - 1, by omega⟩
    obtain ⟨used, m₁, hwrites, hstep⟩ := writeFormat_cons none (fuel + 1) m
      (hwf _ List.mem_cons_self) hplainPiece hfilled (show index < length - 1 by omega)
    have hused : used = min piece.text.length length := hwrites.used_eq
    rw [min_eq_left (by omega)] at hused
    subst hused
    obtain ⟨m', hrun⟩ := ih (fun p h => hwf p (List.mem_cons_of_mem _ h))
      (fun p h => hplain p (List.mem_cons_of_mem _ h)) hfilled.tail
      (show index + piece.text.length + (fullText pieces).length < length - 1 by omega) fuel
      (by omega)
    rw [Nat.add_assoc, ← hlen] at hrun
    exact ⟨m', hstep.trans hrun⟩

/-- The NUL goes behind the text, or over what is in the last byte. -/
theorem Printed.terminate {base : ℤ} {length index' : ℕ} {text : List Char} {m' : Memory}
    (h : Printed base length 0 index' text (fun _ => none) m') (hlength : 1 ≤ length) :
    store (some base) (min index' (length - 1) : ℕ) nul m' =
      storeAll (some base) 0 (text.take (length - 1) ++ [nul]) fun _ => none := by
  have hreach : min index' (length - 1) = min text.length (length - 1) := by
    have := h.reach
    rwa [Nat.zero_add] at this
  have hlen : (text.take (length - 1)).length = min index' (length - 1) := by
    rw [List.length_take, hreach, min_comm]
  funext o
  rw [storeAll_append, hlen, storeAll, storeAll]
  simp only [store, Int.zero_add]
  by_cases hnul : o = base + (min index' (length - 1) : ℕ)
  · rw [hnul, Function.update_self, Function.update_self]
  rw [Function.update_of_ne hnul, Function.update_of_ne hnul, storeAll_eq, Option.or_none]
  have hbound := h.bound
  by_cases hin : base ≤ o ∧ o < base + (min index' (length - 1) : ℕ)
  · obtain ⟨p, rfl⟩ : ∃ p : ℕ, o = base + p := ⟨(o - base).toNat, by omega⟩
    have hp : p < text.length := by omega
    have hget : (text.take (length - 1))[p]? = some text[p] := by
      rw [List.getElem?_take_of_lt (by omega), List.getElem?_eq_getElem hp]
    rw [window_eq_some hget]
    have := h.inside p text[p] (List.getElem?_eq_getElem hp) (by omega)
    rwa [Nat.zero_add] at this
  · rw [h.outside o (by omega), window_eq_none]
    rintro b hb
    cases Option.some_inj.mp hb
    rw [hlen]
    omega

end Loop

/-- A call without a buffer returns the length of the full output and one for the NUL. A call
with a buffer of that size writes the full output, and a smaller one gets as much of it as fits
in front of the NUL. -/
theorem vprintf_agrees {pieces : List Piece} (hwf : WellFormed pieces)
    (hplain : ∀ piece ∈ pieces, piece.Plain) (hsmall : (fullText pieces).length < 2 ^ 32) :
    (∀ bufLen, (vprintf none bufLen (render pieces) (arguments pieces)).map Prod.fst =
      some ((fullText pieces).length + 1)) ∧
    (∀ base bufLen, (fullText pieces).length + 1 ≤ bufLen →
      vprintf (some base) bufLen (render pieces) (arguments pieces) =
        some ((fullText pieces).length,
          storeAll (some base) 0 (fullText pieces ++ [nul]) fun _ => none)) ∧
    ∀ base bufLen, 1 ≤ bufLen → bufLen < (fullText pieces).length + 1 →
      vprintf (some base) bufLen (render pieces) (arguments pieces) =
        some (bufLen - 1,
          storeAll (some base) 0 ((fullText pieces).take (bufLen - 1) ++ [nul]) fun _ => none) := by
  obtain ⟨parsed, data, hparse, hread, hfilled⟩ := parse_render hwf
  have hfilledFrom : FilledFrom data 0 pieces := by
    intro k c rest hk
    rw [Nat.zero_add]
    exact hfilled k c rest hk
  have hcall : ∀ buf bufLen, vprintf buf bufLen (render pieces) (arguments pieces) =
      writeFormattedString (render pieces) data buf bufLen fun _ => none := by
    intro buf bufLen
    simp only [vprintf, hparse, hread, Option.bind_some]
  have hbuffer : ∀ base bufLen, 1 ≤ bufLen →
      vprintf (some base) bufLen (render pieces) (arguments pieces) =
        some (min (fullText pieces).length (bufLen - 1),
          storeAll (some base) 0 ((fullText pieces).take (bufLen - 1) ++ [nul]) fun _ => none) := by
    intro base bufLen hbufLen
    obtain ⟨index', m', hrun, hprinted⟩ := writeFormat_printed base hwf.piece hplain hfilledFrom
      (Nat.zero_le bufLen) (Nat.lt_succ_self _) (m := fun _ => none)
    have hreach := hprinted.reach
    rw [Nat.zero_add] at hreach
    have hsome : (some base : Buffer).isNone = false := rfl
    rw [hcall, writeFormattedString]
    simp only [hsome, Bool.false_eq_true, if_false, show bufLen ≠ 0 by omega, hrun, Option.map_some]
    rw [hprinted.terminate hbufLen, hreach]
  refine ⟨fun bufLen => ?_, fun base bufLen hbufLen => ?_, fun base bufLen hpos hbufLen => ?_⟩
  · obtain ⟨m', hrun⟩ := writeFormat_null hwf.piece hplain hfilledFrom
      (show 0 + (fullText pieces).length < 2 ^ 64 - 1 - 1 by omega) (Nat.lt_succ_self _) (m := fun _ => none)
    have hnone : (none : Buffer).isNone = true := rfl
    rw [hcall, writeFormattedString]
    simp only [hnone, if_true, hrun, Option.map_some]
    norm_num
    omega
  · rw [hbuffer base bufLen (by omega), min_eq_left (by omega), List.take_of_length_le (by omega)]
  · rw [hbuffer base bufLen hpos, min_eq_right (by omega)]

/-- The format `a%-5d`, for 42. -/
def leftAligned : List Piece :=
  [.literal 'a', .conversion ⟨some .dash, .number ['5'], none, .none, 'd', .u64 42⟩]

theorem leftAligned_wellFormed : WellFormed leftAligned where
  piece := by
    intro piece hpiece
    simp only [leftAligned, List.mem_cons, List.not_mem_nil, or_false] at hpiece
    rcases hpiece with rfl | rfl
    · exact show 'a' ≠ '%' by decide
    · exact ⟨⟨forall_mem_of_all (by decide), by decide⟩, ⟨forall_mem_of_all (by decide), by decide⟩,
        nofun, .u32, by decide, by decide⟩
  count := by decide

theorem vprintf_agrees_leftAligned :
    (vprintf none 0 (render leftAligned) (arguments leftAligned)).map Prod.fst = some 7 ∧
      vprintf (some 0) 7 (render leftAligned) (arguments leftAligned) =
        some (6, storeAll (some 0) 0 ['a', '4', '2', ' ', ' ', ' ', nul] fun _ => none) ∧
      vprintf (some 0) 3 (render leftAligned) (arguments leftAligned) =
        some (2, storeAll (some 0) 0 ['a', '4', nul] fun _ => none) := by
  have htext : fullText leftAligned = ['a', '4', '2', ' ', ' ', ' '] := by decide +kernel
  have hplain : ∀ piece ∈ leftAligned, piece.Plain := by
    intro piece hpiece
    simp only [leftAligned, List.mem_cons, List.not_mem_nil, or_false] at hpiece
    rcases hpiece with rfl | rfl
    · trivial
    · exact ⟨by decide, by decide⟩
  have h := vprintf_agrees leftAligned_wellFormed hplain (by rw [htext]; decide)
  rw [htext] at h
  exact ⟨h.1 0, h.2.1 0 7 (by decide), h.2.2 0 3 (by decide) (by decide)⟩

end OMR.Port.Format
