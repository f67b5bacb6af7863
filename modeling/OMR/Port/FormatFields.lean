import OMR.Port.FormatSafety

/-!
# Fields

A conversion without a precision pads its natural text to its width: a number, a string or a
character. A character stands at the end of its field even where the padding belongs there, and
the bytes of a `%ls` are counted with 32 bits.
-/

namespace OMR.Port.Format

/-- The digits of a number in the base that the characters stand for. -/
def numeral (digits : List Char) (n : ℕ) : List Char :=
  if n = 0 then [digits.getD 0 nul]
  else ((Nat.digits digits.length n).map fun d => digits.getD d nul).reverse

/-- A sign and a text, fieldOf to a width. -/
def fieldOf (width : ℕ) (tag : Tag) (zeros : Bool) (sign body : List Char) : List Char :=
  let padding := width - (sign.length + body.length)
  if tag.dash then sign ++ body ++ List.replicate padding ' '
  else if zeros then sign ++ List.replicate padding '0' ++ body
  else List.replicate padding ' ' ++ sign ++ body

namespace Conversion

variable (c : Conversion)

/-- The width, or 0. -/
def minWidth : ℕ := if c.width.value = noValue then 0 else c.width.value

def IsInteger : Prop := c.letter ∈ ['d', 'i', 'u', 'x', 'X']

instance : Decidable c.IsInteger := inferInstanceAs (Decidable (_ ∈ _))

/-- A conversion that pads a natural text. -/
def IsField : Prop :=
  c.precision = none ∧ (c.IsInteger ∨ c.letter = 's' ∨ c.letter = 'c' ∧ c.tag.l = false)

/-- The number that the argument of an integer conversion is, at its width. -/
def integer : ℤ :=
  if c.letter = 'i' ∨ c.letter = 'd' then
    if c.tag.ll then toInt64 c.argument.number else toInt32 c.argument.number
  else c.argument.number

/-- The sign in front of the digits. -/
def sign : List Char :=
  if c.letter = 'i' ∨ c.letter = 'd' then
    if c.integer < 0 then ['-'] else if c.tag.plus then ['+'] else []
  else []

/-- The digits, the character or the string. -/
def body : List Char :=
  if c.letter = 'x' then numeral digitsHexLower c.integer.natAbs
  else if c.letter = 'X' then numeral digitsHexUpper c.integer.natAbs
  else if c.IsInteger then numeral digitsDec c.integer.natAbs
  else if c.letter = 'c' then [toChar c.argument.number]
  else if c.argument.pointer.address = 0 then ['<', 'N', 'U', 'L', 'L', '>']
  else if c.tag.l then unicodeBytes c.argument.pointer.units
  else c.argument.pointer.chars

/-- The natural text, fieldOf on the right under the flag `-` and on the left otherwise, and with
zeros in an integer under the flag `0`. -/
def field : List Char :=
  fieldOf c.minWidth c.tag (c.tag.zero && c.IsInteger) c.sign c.body

/-- The conversion of a character that is not to stand at the end of its field. -/
def MisplacedChar : Prop :=
  c.letter = 'c' ∧ c.tag.dash = true ∧ 1 < c.minWidth ∧ toChar c.argument.number ≠ ' '

/-- The character stands where it belongs, and the bytes of a `%ls` can be counted. -/
def LaysOut : Prop :=
  ¬ c.MisplacedChar ∧ (c.Unicode → (unicodeBytes c.argument.pointer.units).length < 2 ^ 32)

end Conversion

section Numbers

variable {digits : List Char}

theorem digitsText_eq (hbase : 1 < digits.length) {fuel n : ℕ} (hn : n < digits.length ^ fuel)
    (hfuel : 0 < fuel) : digitsText digits fuel n = numeral digits n := by
  induction fuel generalizing n with
  | zero => exact absurd hfuel (Nat.lt_irrefl 0)
  | succ fuel ih =>
    rw [digitsText]
    obtain rfl | hpos := Nat.eq_zero_or_pos n
    · simp [numeral]
    · rw [numeral, if_neg hpos.ne', Nat.digits_def' hbase hpos, List.map_cons, List.reverse_cons]
      congr 1
      split
      · next hzero => rw [hzero, Nat.digits_zero, List.map_nil, List.reverse_nil]
      · next hne =>
        have hlt : n / digits.length < digits.length ^ fuel := by
          rw [Nat.div_lt_iff_lt_mul (by omega), ← Nat.pow_succ]
          exact hn
        have hfuel' : 0 < fuel := by
          by_contra hnot
          obtain rfl : fuel = 0 := by omega
          rw [Nat.pow_zero] at hlt
          exact hne (Nat.lt_one_iff.1 hlt)
        rw [ih hlt hfuel', numeral, if_neg hne]

theorem numberLength_le (base fuel n : ℕ) : numberLength base fuel n ≤ fuel := by
  induction fuel generalizing n with
  | zero => exact le_rfl
  | succ fuel ih =>
    rw [numberLength]
    split
    · omega
    · exact Nat.succ_le_succ (ih _)

/-- Spaces, the sign and zeros. -/
theorem extensionText_eq (padding zeros : ℕ) (signChar : Option Char) {actualPrecision : ℤ}
    (hzeros : actualPrecision.toNat = zeros) :
    extensionText (padding + signChar.toList.length + zeros) actualPrecision signChar =
      List.replicate padding ' ' ++ signChar.toList ++ List.replicate zeros '0' := by
  have hmin : min zeros (padding + signChar.toList.length + zeros) = zeros := by omega
  have hsub : padding + signChar.toList.length + zeros - zeros =
      padding + signChar.toList.length := by omega
  simp only [extensionText, hzeros, hmin, hsub]
  congr 1
  cases signChar with
  | none =>
    simp only [Option.toList_none, List.length_nil, Nat.add_zero, List.append_nil,
      Option.getD_none]
    exact List.set_replicate_self
  | some sign =>
    simp only [Option.toList_some, List.length_singleton, Option.getD_some,
      Nat.add_sub_cancel, List.replicate_succ']
    rw [List.set_append_right _ _ (by rw [List.length_replicate]), List.length_replicate,
      Nat.sub_self]
    rfl

/-- The text of an integer is its sign and its digits, fieldOf. -/
theorem intText_eq {width value n : ℕ} {tag : Tag} {isSigned : Bool} {signChar : Option Char}
    (hbase : 1 < digits.length) (hsign : signOf value tag isSigned = (n, signChar))
    (hn : n < 2 ^ 64) (hwidth : width = noValue ∨ width < 2 ^ 31)
    (hflag : tag.dash = true → tag.zero = false) :
    intText width noValue value tag isSigned digits =
      fieldOf (if width = noValue then 0 else width) tag tag.zero signChar.toList
        (numeral digits n) := by
  have hdigits : digitsText digits 64 n = numeral digits n := by
    apply digitsText_eq hbase _ (by decide)
    exact hn.trans_le (Nat.pow_le_pow_left hbase 64)
  have hlength : (numeral digits n).length ≤ 64 := by
    rw [← hdigits, length_digitsText]
    exact numberLength_le _ _ _
  rw [intText, hsign]
  simp only [hdigits, ne_eq, not_true_eq_false, if_false]
  generalize numeral digits n = number at hlength ⊢
  have hsigned : (if signChar.isSome = true then number.length + 1 else number.length) =
      signChar.toList.length + number.length := by
    cases signChar with
    | none => simp
    | some sign => simp [Nat.add_comm]
  have hone : (if signChar.isSome = true then 1 else 0) = signChar.toList.length := by
    cases signChar with
    | none => rfl
    | some sign => rfl
  have hle : signChar.toList.length ≤ 1 := by
    rw [← hone]
    split
    · exact le_rfl
    · exact Nat.zero_le 1
  rw [hsigned, hone]
  generalize hlen : signChar.toList.length + number.length = length
  generalize hmin : (if width = noValue then 0 else width) = minWidth
  have hwhole : (if ¬width = noValue then max length (width % 2 ^ 32) else length) =
      length + (minWidth - length) := by
    subst hmin
    by_cases hnone : width = noValue
    · simp [hnone]
    · obtain hw | hw := hwidth
      · exact absurd hw hnone
      · rw [if_pos hnone, if_neg hnone, Nat.mod_eq_of_lt (by omega)]
        omega
  have hsmall : minWidth < 2 ^ 31 := by
    subst hmin
    split
    · decide
    · omega
  rw [hwhole, fieldOf, hlen]
  generalize hpadding : minWidth - length = padding
  have hbound : length + padding < 2 ^ 32 - 1 := by omega
  have hadd : length + padding - length = padding := by omega
  by_cases hdash : tag.dash = true
  · have hplaces : length + padding - padding - number.length =
        0 + signChar.toList.length + 0 := by omega
    simp only [hdash, hflag hdash, if_true, Bool.false_eq_true, if_false, hadd, hplaces]
    rw [extensionText_eq 0 0 signChar (by omega)]
    simp
  · by_cases hzero : tag.zero = true
    · have hplaces : length + padding - 0 - number.length =
          0 + signChar.toList.length + padding := by omega
      have hint : toInt32 (length + padding - signChar.toList.length) =
          (length + padding - signChar.toList.length : ℕ) := by
        rw [toInt32, Nat.mod_eq_of_lt (by omega), if_pos (by omega)]
      simp only [hdash, hzero, if_true, Bool.false_eq_true, if_false, hplaces, hint]
      rw [extensionText_eq 0 padding signChar (by omega)]
      simp
    · have hplaces : length + padding - 0 - number.length =
          padding + signChar.toList.length + 0 := by omega
      simp only [hdash, hzero, Bool.false_eq_true, if_false, hplaces]
      rw [extensionText_eq padding 0 signChar (by omega)]
      simp

end Numbers

section Texts

variable {c : Conversion} {width : ℕ} {tag : Tag} {text : List Char}

/-- The text of a string is padded. -/
theorem stringText_eq (width : ℕ) (text : List Char) (tag : Tag) :
    stringText width noValue text tag =
      fieldOf (if width = noValue then 0 else width) tag false [] text := by
  have havailable : available noValue text = text.length := if_pos rfl
  simp only [stringText, havailable, List.take_length, paddings, fieldOf, List.length_nil,
    Nat.zero_add, List.nil_append, Bool.false_eq_true, if_false]
  by_cases hnone : width = noValue
  · simp [hnone]
  · simp only [hnone, if_false]
    by_cases hwider : width > text.length
    · by_cases hdash : tag.dash = true
      · simp [hwider, hdash]
      · simp [hwider, hdash]
    · have hzero : width - text.length = 0 := by omega
      simp [hwider, hzero]

theorem length_fieldOf (width : ℕ) (tag : Tag) (zeros : Bool) (sign body : List Char) :
    (fieldOf width tag zeros sign body).length = max width (sign.length + body.length) := by
  simp only [fieldOf]
  split_ifs
  all_goals
    simp only [List.length_append, List.length_replicate]
    omega

/-- The character at the end of a field is the character of the field, unless it is padded on
the right. -/
theorem dropLast_fieldOf (width : ℕ) (tag : Tag) (char : Char) :
    (fieldOf width tag false [] [' ']).dropLast ++ [char] = fieldOf width tag false [] [char] ↔
      ¬ (tag.dash = true ∧ 1 < width ∧ char ≠ ' ') := by
  simp only [fieldOf, List.length_nil, List.length_singleton, Nat.zero_add, List.nil_append,
    Bool.false_eq_true, if_false]
  by_cases hdash : tag.dash = true
  · simp only [hdash, if_true, true_and]
    generalize hpadding : width - 1 = padding
    have hblanks : [' '] ++ List.replicate padding ' ' = List.replicate padding ' ' ++ [' '] := by
      rw [← List.replicate_succ', List.replicate_succ]
      rfl
    rw [hblanks, List.dropLast_concat]
    cases padding with
    | zero =>
      have : ¬ 1 < width := by omega
      simp [this]
    | succ padding =>
      have hwidth : 1 < width := by omega
      rw [List.replicate_succ]
      simp only [List.cons_append, List.nil_append, List.cons.injEq, hwidth, true_and, not_not]
      constructor
      · rintro ⟨rfl, -⟩
        rfl
      · rintro rfl
        exact ⟨rfl, by rw [← List.replicate_succ', List.replicate_succ]⟩
  · simp [hdash]

namespace Conversion

theorem IsField.precision_value (h : c.IsField) : c.precisionAmount.value = noValue := by
  rw [precisionAmount, h.1]
  rfl

theorem width_small (hwf : c.WellFormed) : c.width.value = noValue ∨ c.width.value < 2 ^ 31 := by
  have hwidth := hwf.width
  cases hw : c.width with
  | number digits =>
    rw [hw] at hwidth
    cases digits with
    | nil => exact .inl rfl
    | cons d digits => exact .inr hwidth.2
  | star value =>
    rw [hw] at hwidth
    exact .inr hwidth

/-- Of the flags there is one at most. -/
theorem zero_of_dash (h : c.tag.dash = true) : c.tag.zero = false := by
  obtain ⟨flag, _, _, modifier, _, _⟩ := c
  obtain _ | flag := flag
  · cases modifier <;> cases h
  · cases flag <;> cases modifier <;> first | rfl | cases h

/-- The argument of an integer conversion has its width. -/
theorem number_lt (hwf : c.WellFormed) (hint : c.IsInteger) :
    c.argument.number < if c.tag.ll then 2 ^ 64 else 2 ^ 32 := by
  obtain ⟨type, htype, htakes⟩ := hwf.typed
  have hletter : c.letter ≠ 'c' := by
    intro hc
    rw [IsInteger, hc] at hint
    exact absurd hint (by decide)
  have hmem : c.letter ∈ ['i', 'd', 'u', 'x', 'X'] := by
    simp only [IsInteger, List.mem_cons, List.not_mem_nil, or_false] at hint ⊢
    tauto
  rw [letterType, if_neg hletter, if_pos hmem, Option.some.injEq] at htype
  subst htype
  cases harg : c.argument with
  | ptr value =>
    rw [harg] at htakes
    split at htakes <;> cases htakes
  | u64 value =>
    rw [harg] at htakes
    split at htakes
    · next hll =>
      rw [if_pos hll]
      simp only [ValueType.takes] at htakes
      split at htakes
      · assumption
      · cases htakes
    · next hll =>
      rw [if_neg hll]
      simp only [ValueType.takes] at htakes
      split at htakes
      · assumption
      · cases htakes

/-- What the sign and the magnitude of a number are taken for. -/
theorem signOf_eq (hwf : c.WellFormed) (hint : c.IsInteger) {isSigned : Bool}
    (hsigned : isSigned = true ↔ c.letter = 'i' ∨ c.letter = 'd') :
    ∃ signChar, signOf c.argument.number c.tag isSigned = (c.integer.natAbs, signChar) ∧
      signChar.toList = c.sign ∧ c.integer.natAbs < 2 ^ 64 := by
  have hlt := number_lt hwf hint
  by_cases hletter : c.letter = 'i' ∨ c.letter = 'd'
  · have hvalue : c.integer = if c.tag.ll then toInt64 c.argument.number
        else toInt32 c.argument.number := if_pos hletter
    have hsmall : c.integer.natAbs < 2 ^ 64 := by
      rw [hvalue, toInt64, toInt32]
      split_ifs <;> omega
    rw [signOf, if_pos (hsigned.2 hletter), sign, if_pos hletter]
    simp only [← hvalue]
    by_cases hneg : c.integer < 0
    · refine ⟨some '-', ?_, ?_, hsmall⟩
      · rw [if_pos hneg, show (-c.integer).toNat = c.integer.natAbs by omega]
      · rw [if_pos hneg]
        rfl
    · have hself : c.argument.number = c.integer.natAbs := by
        rw [hvalue, toInt64, toInt32] at hneg ⊢
        split_ifs at hlt hneg ⊢ <;> omega
      refine ⟨if c.tag.plus then some '+' else none, ?_, ?_, hsmall⟩
      · rw [if_neg hneg, ← hself]
      · rw [if_neg hneg]
        split <;> rfl
  · have hvalue : c.integer = c.argument.number := if_neg hletter
    refine ⟨none, ?_, ?_, ?_⟩
    · rw [signOf, if_neg fun h => hletter (hsigned.1 h), hvalue, Int.natAbs_natCast]
    · rw [sign, if_neg hletter]
      rfl
    · rw [hvalue, Int.natAbs_natCast]
      split at hlt <;> omega

theorem text_of_integer (hwf : c.WellFormed) (hfield : c.IsField) (hint : c.IsInteger) :
    c.text = c.field := by
  have htext : ∀ (digits : List Char) (isSigned : Bool), 1 < digits.length →
      (isSigned = true ↔ c.letter = 'i' ∨ c.letter = 'd') →
      c.body = numeral digits c.integer.natAbs →
      intText c.width.value c.precisionAmount.value c.argument.number c.tag isSigned digits =
        c.field := by
    intro digits isSigned hbase hsigned hbody
    obtain ⟨signChar, hsign, hlist, hlt⟩ := signOf_eq hwf hint hsigned
    rw [hfield.precision_value, intText_eq hbase hsign hlt (width_small hwf) zero_of_dash, hlist,
      ← hbody, field, minWidth, decide_eq_true hint, Bool.and_true]
  simp only [IsInteger, List.mem_cons, List.not_mem_nil, or_false] at hint
  obtain hd | hi | hu | hx | hX := hint
  · rw [text, if_pos (.inr hd)]
    exact htext _ _ (by decide) (by simp [hd]) (by simp [body, IsInteger, hd])
  · rw [text, if_pos (.inl hi)]
    exact htext _ _ (by decide) (by simp [hi]) (by simp [body, IsInteger, hi])
  · rw [text, if_neg (by simp [hu]), if_pos hu]
    exact htext _ _ (by decide) (by simp [hu]) (by simp [body, IsInteger, hu])
  · rw [text, if_neg (by simp [hx]), if_neg (by simp [hx]), if_pos hx]
    exact htext _ _ (by decide) (by simp [hx]) (by simp [body, hx])
  · rw [text, if_neg (by simp [hX]), if_neg (by simp [hX]), if_neg (by simp [hX]), if_pos hX]
    exact htext _ _ (by decide) (by simp [hX]) (by simp [body, hX])

/-- A string or a character has no sign, and no zeros are put in front of it. -/
theorem field_of_not_integer (hletter : c.letter = 's' ∨ c.letter = 'c') :
    c.field = fieldOf c.minWidth c.tag false [] c.body := by
  have hint : ¬ c.IsInteger := by
    obtain hs | hc := hletter
    · rw [IsInteger, hs]
      decide
    · rw [IsInteger, hc]
      decide
  have hsign : c.sign = [] := by
    rw [sign, if_neg]
    rintro (h | h)
    all_goals
      rw [h] at hletter
      exact absurd hletter (by decide)
  rw [field, hsign, decide_eq_false hint, Bool.and_false]

theorem text_of_string (hfield : c.IsField) (hs : c.letter = 's') (hunicode : ¬ c.Unicode) :
    c.text = c.field := by
  rw [field_of_not_integer (.inl hs), text, hfield.precision_value]
  simp only [hs, body, IsInteger, stringText_eq]
  by_cases hnull : c.argument.pointer.address = 0
  · simp [hnull, minWidth]
  · have hl : ¬ c.tag.l = true := fun h => hunicode ⟨hs, h, hnull⟩
    simp [hnull, hl, minWidth]

theorem text_of_char (hfield : c.IsField) (hc : c.letter = 'c') (hl : c.tag.l = false) :
    c.text = (fieldOf c.minWidth c.tag false [] [' ']).dropLast ++
      [toChar c.argument.number] := by
  rw [text, hfield.precision_value]
  simp [hc, hl, stringText_eq, minWidth]

theorem field_of_char (hc : c.letter = 'c') :
    c.field = fieldOf c.minWidth c.tag false [] [toChar c.argument.number] := by
  rw [field_of_not_integer (.inr hc)]
  simp [body, IsInteger, hc]

/-- The text is the field, but for a misplaced character. -/
theorem text_eq_field_iff (hwf : c.WellFormed) (hfield : c.IsField) (hunicode : ¬ c.Unicode) :
    c.text.length = c.field.length ∧ (c.text = c.field ↔ ¬ c.MisplacedChar) := by
  have hother : c.letter ≠ 'c' → ¬ c.MisplacedChar := fun hne h => hne h.1
  obtain hint | hs | ⟨hc, hl⟩ := hfield.2
  · have hne : c.letter ≠ 'c' := by
      intro hc
      rw [IsInteger, hc] at hint
      exact absurd hint (by decide)
    have heq := text_of_integer hwf hfield hint
    exact ⟨congrArg List.length heq, fun _ => hother hne, fun _ => heq⟩
  · have hne : c.letter ≠ 'c' := by
      rw [hs]
      decide
    have heq := text_of_string hfield hs hunicode
    exact ⟨congrArg List.length heq, fun _ => hother hne, fun _ => heq⟩
  · rw [text_of_char hfield hc hl, field_of_char hc, dropLast_fieldOf, MisplacedChar]
    refine ⟨?_, by simp [hc]⟩
    rw [List.length_append, List.length_dropLast, length_fieldOf, length_fieldOf]
    simp only [List.length_singleton, List.length_nil]
    omega

end Conversion

end Texts

section Unicode

variable {c : Conversion} {room : ℕ}

/-- The counts of a string with an encoding that fits, and is short enough to be counted. -/
theorem countUnicode_all {chars bytes : ℕ} {units : List (BitVec 16)} (hchars : chars ≤ bytes)
    (hroom : bytes + (unicodeBytes units).length ≤ room)
    (hsmall : bytes + (unicodeBytes units).length < 2 ^ 32) :
    countUnicode room (chars + units.length) chars bytes units =
      some (chars + units.length, bytes + (unicodeBytes units).length) := by
  induction units generalizing chars bytes with
  | nil =>
    rw [countUnicode, if_neg (by simp)]
    rfl
  | cons u units ih =>
    have hlen := length_encodeUTF8Char u
    rw [length_unicodeBytes_cons] at hroom hsmall ⊢
    have hadd : chars + (u :: units).length = chars + 1 + units.length := by
      rw [List.length_cons]
      omega
    rw [countUnicode, if_pos (by rw [List.length_cons]; omega)]
    simp only [Nat.mod_eq_of_lt (show bytes + (encodeUTF8Char u.toNat).length < 2 ^ 32 by omega)]
    rw [if_neg (by omega), Nat.mod_eq_of_lt (by omega), hadd,
      ih (by omega) (by omega) (by omega), Nat.add_assoc bytes]

/-- The count of the bytes has 32 bits. -/
theorem countUnicode_lt {precision chars bytes : ℕ} {units : List (BitVec 16)} {counts : ℕ × ℕ}
    (hbytes : bytes < 2 ^ 32) (hcount : countUnicode room precision chars bytes units = some counts) :
    counts.2 < 2 ^ 32 := by
  induction units generalizing chars bytes with
  | nil =>
    rw [countUnicode] at hcount
    split at hcount
    · cases hcount
    · obtain rfl := Option.some.inj hcount
      exact hbytes
  | cons u units ih =>
    rw [countUnicode] at hcount
    split at hcount
    · dsimp only at hcount
      split at hcount
      · obtain rfl := Option.some.inj hcount
        exact hbytes
      · exact ih (Nat.mod_lt _ (by decide)) hcount
    · obtain rfl := Option.some.inj hcount
      exact hbytes

namespace Conversion

theorem field_of_unicode (hunicode : c.Unicode) :
    c.field = fieldOf c.minWidth c.tag false [] (unicodeBytes c.argument.pointer.units) := by
  obtain ⟨hs, hl, hnull⟩ := hunicode
  rw [field_of_not_integer (.inl hs)]
  simp [body, IsInteger, hs, hl, hnull]

theorem unicodeWrites_field (hfield : c.IsField) (hunicode : c.Unicode)
    (hroom : c.field.length ≤ room)
    (hsmall : (unicodeBytes c.argument.pointer.units).length < 2 ^ 32) :
    c.unicodeWrites room = some (c.field.length, c.field) := by
  have hlength : c.field.length =
      max c.minWidth (unicodeBytes c.argument.pointer.units).length := by
    rw [field_of_unicode hunicode, length_fieldOf, List.length_nil, Nat.zero_add]
  have hall : available noValue c.argument.pointer.units = c.argument.pointer.units.length :=
    if_pos rfl
  have hcount : countUnicode room (0 + c.argument.pointer.units.length) 0 0
      c.argument.pointer.units = some (0 + c.argument.pointer.units.length,
        0 + (unicodeBytes c.argument.pointer.units).length) :=
    countUnicode_all (le_refl 0) (by omega) (by omega)
  rw [Nat.zero_add, Nat.zero_add] at hcount
  rw [unicodeWrites, hfield.precision_value, hall, hcount, Option.map_some, Option.some.injEq,
    Prod.mk.injEq, List.take_length, hlength, field_of_unicode hunicode]
  simp only [fieldOf, paddings, minWidth] at hlength hroom ⊢
  rw [hlength] at hroom
  by_cases hnone : c.width.value = noValue
  · simp [hnone]
  · simp only [hnone, if_false, List.length_nil, Nat.zero_add, List.nil_append, Bool.false_eq_true]
      at hroom ⊢
    by_cases hwider : c.width.value > (unicodeBytes c.argument.pointer.units).length
    · rw [if_pos hwider]
      by_cases hdash : c.tag.dash = true
      · simp only [hdash, if_true, Nat.zero_min, List.replicate_zero, List.nil_append]
        rw [min_eq_left (by omega)]
        exact ⟨by omega, rfl⟩
      · simp only [hdash, Bool.false_eq_true, if_false, Nat.zero_min, List.replicate_zero,
          List.append_nil]
        rw [min_eq_left (by omega)]
        exact ⟨by omega, rfl⟩
    · have hzero : c.width.value - (unicodeBytes c.argument.pointer.units).length = 0 := by omega
      simp only [hwider, hzero, Nat.zero_min, List.replicate_zero, List.nil_append,
        List.append_nil, ite_self, and_true]
      omega

/-- What a `%ls` adds to the index has 32 bits. -/
theorem unicodeWrites_lt (hwf : c.WellFormed) {used : ℕ} {text : List Char}
    (hwrites : c.unicodeWrites room = some (used, text)) : used < 2 ^ 32 := by
  obtain ⟨⟨chars, bytes⟩, hcount, heq⟩ := Option.map_eq_some_iff.1 hwrites
  have hbytes : bytes < 2 ^ 32 := countUnicode_lt (by decide) hcount
  obtain ⟨rfl, -⟩ := Prod.mk.inj heq
  have hwidth := width_small hwf
  simp only [paddings]
  split_ifs <;> omega

end Conversion

end Unicode

section Fields

variable {c : Conversion} {data : FormatData} {spec : Specifier} {rest : List Char} {base : ℤ}
  {room bufLen : ℕ} {m : Memory}

/-- A text with room behind it is stored as it is. -/
theorem Writes.eq_storeAll {text : List Char} {m' : Memory} {used : ℕ}
    (h : Writes (some base) room text m m' used) (hroom : text.length < room) :
    used = text.length ∧ m' = storeAll (some base) 0 text m := by
  have hused : used = text.length := by
    rw [h.used_eq, min_eq_left hroom.le]
  refine ⟨hused, ?_⟩
  funext o
  rw [storeAll_eq]
  by_cases hin : base ≤ o ∧ o < base + text.length
  · obtain ⟨p, rfl⟩ : ∃ p : ℕ, o = base + p := ⟨(o - base).toNat, by omega⟩
    obtain ⟨char, hchar, hget⟩ := h.inside base rfl p (by omega)
    rw [hchar, window_eq_some (hget (by omega))]
    rfl
  · rw [window_eq_none fun b hb => by cases Option.some_inj.1 hb; omega, Option.none_or]
    exact h.outside o fun b hb => by cases Option.some_inj.1 hb; omega

/-- Texts of one length that leave the same memory are the same. -/
theorem storeAll_injective {text text' : List Char} (hlength : text.length = text'.length)
    (h : storeAll (some base) 0 text m = storeAll (some base) 0 text' m) : text = text' := by
  apply List.ext_getElem hlength
  intro p hp hp'
  have hget := congrFun h (base + p)
  rw [storeAll_eq, storeAll_eq, window_eq_some (List.getElem?_eq_getElem hp),
    window_eq_some (List.getElem?_eq_getElem hp')] at hget
  exact Option.some.inj hget

namespace Conversion

theorem IsField.not_emptyChar (h : c.IsField) : ¬ c.EmptyChar := by
  rintro ⟨-, -, hempty⟩
  have hlength := congrArg List.length hempty
  rw [h.precision_value, stringText_eq, length_fieldOf, List.length_singleton] at hlength
  simp at hlength

/-- What a conversion with enough room leaves, unless it is the string of a `%ls`. -/
theorem writeSpec_text (hfilled : Filled data spec c rest) (hwf : c.WellFormed)
    (hfield : c.IsField) (hunicode : ¬ c.Unicode) (hroom : c.field.length < room) :
    writeSpec data spec (some base) room m =
      some (c.field.length, storeAll (some base) 0 c.text m) := by
  obtain ⟨used, m', hwrite, hwrites⟩ : ∃ used m',
      writeSpec data spec (some base) room m = some (used, m') ∧
        Writes (some base) room c.text m m' used :=
    writeSpec_writes hfilled hwf hunicode hfield.not_emptyChar (Nat.zero_lt_of_lt hroom)
  have hlength := (text_eq_field_iff hwf hfield hunicode).1
  obtain ⟨rfl, rfl⟩ := hwrites.eq_storeAll (by omega)
  rw [hwrite, hlength]

/-- With enough room the text of a conversion is its field exactly where it is laid out. -/
theorem writeSpec_field_iff (hfilled : Filled data spec c rest) (hwf : c.WellFormed)
    (hfield : c.IsField) (hroom : c.field.length < room) :
    writeSpec data spec (some base) room m =
      some (c.field.length, storeAll (some base) 0 c.field m) ↔ c.LaysOut := by
  rw [LaysOut]
  by_cases hunicode : c.Unicode
  · have hchar : ¬ c.MisplacedChar := by
      rintro ⟨hc, -⟩
      rw [hunicode.1] at hc
      exact absurd hc (by decide)
    rw [writeSpec_unicode hfilled hunicode, and_iff_right hchar, imp_iff_right hunicode]
    constructor
    · intro hwrite
      obtain ⟨⟨used, text⟩, hwrites, heq⟩ := Option.map_eq_some_iff.1 hwrite
      obtain ⟨rfl, -⟩ := Prod.mk.inj heq
      have hlt := unicodeWrites_lt hwf hwrites
      rw [field_of_unicode hunicode, length_fieldOf] at hlt
      simp only [List.length_nil] at hlt
      omega
    · intro hsmall
      rw [unicodeWrites_field hfield hunicode hroom.le hsmall, Option.map_some]
  · obtain ⟨hlength, hiff⟩ := text_eq_field_iff hwf hfield hunicode
    rw [writeSpec_text hfilled hwf hfield hunicode hroom, Option.some.injEq, Prod.mk.injEq,
      and_iff_right rfl, ← hiff, and_iff_left fun h => absurd h hunicode]
    exact ⟨storeAll_injective hlength, fun h => congrArg (storeAll (some base) 0 · m) h⟩

end Conversion

/-- A call with a single conversion. -/
theorem vprintf_single (hwf : c.WellFormed) : ∃ data spec, Filled data spec c [] ∧
    ∀ base bufLen, 2 ≤ bufLen →
      vprintf (some base) bufLen (render [.conversion c]) (arguments [.conversion c]) =
        (writeSpec data spec (some base) bufLen fun _ => none).map fun (used, m) =>
          (min used (bufLen - 1), store (some base) (min used (bufLen - 1) : ℕ) nul m) := by
  have hpieces : Format.WellFormed [.conversion c] := by
    refine ⟨?_, show 1 ≤ maxSpecs by decide⟩
    intro piece hpiece
    rw [List.mem_singleton] at hpiece
    subst hpiece
    exact hwf
  obtain ⟨parsed, data, hparse, hread, hfilled⟩ := parse_render hpieces
  have hfilledFrom : FilledFrom data 0 [.conversion c] := by
    intro k c' rest hk
    rw [Nat.zero_add]
    exact hfilled k c' rest hk
  refine ⟨data, data.spec 0, hfilled 0 c [] rfl, fun base bufLen hbufLen => ?_⟩
  have hsome : (some base : Buffer).isNone = false := rfl
  obtain ⟨fuel, hfuel⟩ : ∃ n, (render [.conversion c]).length = n + 1 :=
    ⟨(render [.conversion c]).length - 1, by
      have := length_render_cons (.conversion c) []
      omega⟩
  simp only [vprintf, hparse, hread, Option.bind_some]
  rw [writeFormattedString]
  simp only [hsome, Bool.false_eq_true, if_false, show bufLen ≠ 0 by omega]
  rw [writeFormat_conversion hwf hfilledFrom (by omega), hfuel]
  have hbuffer : advance (some base) 0 = some base := by
    simp [advance]
  have hroom : roomAt (some base) bufLen 0 = bufLen := by
    simp [roomAt]
  rw [hbuffer, hroom]
  cases writeSpec data (data.spec 0) (some base) bufLen fun _ => none with
  | none => rfl
  | some result =>
    simp only [Option.bind_some, Option.map_some, Nat.zero_add]
    rfl

/-- The NUL goes behind a field that is laid out. -/
theorem store_nul (text : List Char) (hroom : text.length + 1 ≤ bufLen) :
    store (some base) (min text.length (bufLen - 1) : ℕ) nul (storeAll (some base) 0 text m) =
      storeAll (some base) 0 (text ++ [nul]) m := by
  rw [storeAll_append, min_eq_left (by omega), Int.zero_add]
  rfl

theorem vprintf_field_iff (hwf : c.WellFormed) (hfield : c.IsField)
    (hroom : c.field.length + 1 < bufLen) :
    vprintf (some base) bufLen (render [.conversion c]) (arguments [.conversion c]) =
      some (c.field.length, storeAll (some base) 0 (c.field ++ [nul]) fun _ => none) ↔
        c.LaysOut := by
  obtain ⟨data, spec, hfilled, hcall⟩ := vprintf_single hwf
  have hiff : (writeSpec data spec (some base) bufLen fun _ => none) =
      some (c.field.length, storeAll (some base) 0 c.field fun _ => none) ↔ c.LaysOut :=
    Conversion.writeSpec_field_iff hfilled hwf hfield (by omega)
  rw [hcall base bufLen (by omega), ← hiff]
  constructor
  · intro hprinted
    obtain ⟨⟨used, m'⟩, hwrite, heq⟩ := Option.map_eq_some_iff.1 hprinted
    obtain ⟨hused, hmemory⟩ := Prod.mk.inj heq
    rw [hiff, Conversion.LaysOut]
    refine ⟨fun hchar => ?_, fun hunicode => ?_⟩
    · have hunicode : ¬ c.Unicode := fun h => by
        have := h.1.symm.trans hchar.1
        exact absurd this (by decide)
      obtain ⟨hlength, htext⟩ := Conversion.text_eq_field_iff hwf hfield hunicode
      rw [Conversion.writeSpec_text hfilled hwf hfield hunicode (by omega)] at hwrite
      obtain ⟨rfl, rfl⟩ := Prod.mk.inj (Option.some.inj hwrite)
      rw [← hlength, store_nul _ (by omega)] at hmemory
      have hsame := storeAll_injective (by simp [hlength]) hmemory
      exact htext.1 (List.append_cancel_right hsame) hchar
    · rw [writeSpec_unicode hfilled hunicode] at hwrite
      obtain ⟨⟨used', text⟩, hwrites, heq'⟩ := Option.map_eq_some_iff.1 hwrite
      obtain ⟨rfl, -⟩ := Prod.mk.inj heq'
      have hlt := Conversion.unicodeWrites_lt hwf hwrites
      have hlength := length_fieldOf c.minWidth c.tag false []
        (unicodeBytes c.argument.pointer.units)
      rw [← Conversion.field_of_unicode hunicode, List.length_nil] at hlength
      have hused' : min used' (bufLen - 1) = c.field.length := hused
      omega
  · intro hwrite
    rw [hwrite, Option.map_some]
    simp only
    rw [store_nul _ (by omega), min_eq_left (by omega)]

end Fields

/-- In a large enough buffer the text of a conversion is its field, in any call and in a call
of its own, exactly if it is neither a character that is to be padded on the right with blanks,
unless it is a blank itself, nor a string of units with an encoding of 2^32 bytes or more. -/
theorem field_laidOut_iff {c : Conversion} (hwf : c.WellFormed) (hfield : c.IsField) :
    (∀ data spec rest, Filled data spec c rest → ∀ base room m, c.field.length < room →
      (writeSpec data spec (some base) room m =
        some (c.field.length, storeAll (some base) 0 c.field m) ↔ c.LaysOut)) ∧
    ∀ base bufLen, c.field.length + 1 < bufLen →
      (vprintf (some base) bufLen (render [.conversion c]) (arguments [.conversion c]) =
        some (c.field.length, storeAll (some base) 0 (c.field ++ [nul]) fun _ => none) ↔
          c.LaysOut) :=
  ⟨fun _ _ _ hfilled _ _ _ hroom => Conversion.writeSpec_field_iff hfilled hwf hfield hroom,
    fun _ _ hroom => vprintf_field_iff hwf hfield hroom⟩

/-- `%05d`, for -7. -/
def zeroFilled : Conversion := ⟨some .zero, .number ['5'], none, .none, 'd', .u64 (2 ^ 32 - 7)⟩

theorem field_laidOut_iff_zeroFilled :
    vprintf (some 0) 7 (render [.conversion zeroFilled]) (arguments [.conversion zeroFilled]) =
      some (5, storeAll (some 0) 0 ['-', '0', '0', '0', '7', nul] fun _ => none) := by
  have hwf : zeroFilled.WellFormed :=
    ⟨⟨forall_mem_of_all (by decide), by decide⟩, ⟨forall_mem_of_all (by decide), by decide⟩,
      (by intro h; cases h), .u32, by decide, by decide⟩
  have htext : zeroFilled.field = ['-', '0', '0', '0', '7'] := by decide +kernel
  have h := (field_laidOut_iff hwf ⟨rfl, .inl (by decide)⟩).2 0 7 (by rw [htext]; decide)
  rw [htext] at h
  refine h.2 ⟨?_, ?_⟩
  · rintro ⟨hc, -⟩
    exact absurd hc (by decide)
  · rintro ⟨hs, -⟩
    exact absurd hs (by decide)

/-- `%-5c`, for the character A. -/
def rightPaddedChar : Conversion := ⟨some .dash, .number ['5'], none, .none, 'c', .u64 65⟩

/-- The character goes behind the padding. -/
theorem rightPaddedChar_misplaced : rightPaddedChar.WellFormed ∧ rightPaddedChar.IsField ∧
    rightPaddedChar.field = ['A', ' ', ' ', ' ', ' '] ∧
    vprintf (some 0) 16 (render [.conversion rightPaddedChar])
        (arguments [.conversion rightPaddedChar]) ≠
      some (5, storeAll (some 0) 0 ['A', ' ', ' ', ' ', ' ', nul] fun _ => none) := by
  refine ⟨⟨⟨forall_mem_of_all (by decide), by decide⟩,
      ⟨forall_mem_of_all (by decide), by decide⟩, (by intro h; cases h), .u32, by decide,
      by decide⟩,
    ⟨rfl, .inr (.inr ⟨rfl, rfl⟩)⟩, by decide +kernel, fun heq => ?_⟩
  have hfirst : (vprintf (some 0) 16 (render [.conversion rightPaddedChar])
      (arguments [.conversion rightPaddedChar])).map (fun result => result.2 0) =
        some (some ' ') := by
    decide +kernel
  rw [heq] at hfirst
  exact absurd hfirst (by decide +kernel)

end OMR.Port.Format
