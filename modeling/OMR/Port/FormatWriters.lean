import OMR.Port.Format

/-!
# The writers behind `omrstr_vprintf`

The buffer is memory around the address it starts at, where only what the call has written is
known. A writer gets the room that is left and returns how much it has, or would have, used.
-/

namespace OMR.Port.Format

/-- The characters written so far, by offset from the buffer. -/
abbrev Memory := ℤ → Option Char

/-- A pointer into the buffer, or NULL. -/
abbrev Buffer := Option ℤ

/-- `buf + i`, where NULL stays NULL. -/
def advance (buf : Buffer) (i : ℕ) : Buffer := buf.map fun base => base + i

/-- `if (buf) buf[i] = c`. -/
def store (buf : Buffer) (i : ℤ) (c : Char) (m : Memory) : Memory :=
  match buf with
  | none => m
  | some base => Function.update m (base + i) (some c)

/-- `if (buf) memcpy(buf + i, text, ...)`. -/
def storeAll (buf : Buffer) : ℤ → List Char → Memory → Memory
  | _, [], m => m
  | i, c :: text, m => storeAll buf (i + 1) text (store buf i c m)

/-- The NUL character. -/
def nul : Char := Char.ofNat 0

def digitsDec : List Char := ['0', '1', '2', '3', '4', '5', '6', '7', '8', '9']

def digitsHexLower : List Char := digitsDec ++ ['a', 'b', 'c', 'd', 'e', 'f']

def digitsHexUpper : List Char := digitsDec ++ ['A', 'B', 'C', 'D', 'E', 'F']

section Int

/-- The loop that finds the end of the number. -/
def numberLength (base : ℕ) : ℕ → ℕ → ℕ
  | 0, _ => 0
  | fuel + 1, temp => if temp / base = 0 then 1 else numberLength base fuel (temp / base) + 1

/-- `(int32_t)value`. -/
def toInt32 (value : ℕ) : ℤ :=
  if value % 2 ^ 32 < 2 ^ 31 then (value % 2 ^ 32 : ℕ) else (value % 2 ^ 32 : ℕ) - 2 ^ 32

/-- `(int64_t)value`. -/
def toInt64 (value : ℕ) : ℤ :=
  if value % 2 ^ 64 < 2 ^ 63 then (value % 2 ^ 64 : ℕ) else (value % 2 ^ 64 : ℕ) - 2 ^ 64

/-- The number is written backwards: `length` is where it goes on, `index` counts. -/
structure Backwards where
  length : ℕ
  index : ℕ
  memory : Memory

variable (buf : Buffer) (bufLen : ℕ)

/-- One character, if it is inside the buffer. -/
def Backwards.put (s : Backwards) (c : Char) : Backwards :=
  let length := s.length - 1
  if length < bufLen then ⟨length, s.index + 1, store buf length c s.memory⟩
  else ⟨length, s.index, s.memory⟩

/-- The loop for the space on the right. -/
def putRightSpace : ℕ → Backwards → Backwards
  | 0, s => s
  | rightSpace + 1, s => putRightSpace rightSpace (s.put buf bufLen ' ')

/-- The loop for the digits; a number of 64 bits has at most 64. -/
def putDigits (digits : List Char) : ℕ → ℕ → Backwards → Backwards
  | 0, _, s => s
  | fuel + 1, temp, s =>
    let s := s.put buf bufLen (digits.getD (temp % digits.length) nul)
    if temp / digits.length = 0 then s else putDigits digits fuel (temp / digits.length) s

/-- The loop that extends the number to the left, down to length 0. -/
def putExtension : ℕ → ℤ → Option Char → Backwards → Backwards
  | 0, _, _, s => s
  | n + 1, actualPrecision, signChar, s =>
    let actualPrecision := actualPrecision - 1
    if s.length - 1 < bufLen then
      if actualPrecision ≥ 0 then
        putExtension n actualPrecision signChar (s.put buf bufLen '0')
      else
        -- The sign is cleared only where it is printed.
        putExtension n actualPrecision (if buf.isSome then none else signChar)
          (s.put buf bufLen (signChar.getD ' '))
    else putExtension n actualPrecision signChar (s.put buf bufLen ' ')

/-- The magnitude and the sign that is printed. -/
def signOf (value : ℕ) (tag : Tag) (isSigned : Bool) : ℕ × Option Char :=
  if isSigned then
    let signedValue := if tag.ll then toInt64 value else toInt32 value
    if signedValue < 0 then ((-signedValue).toNat, some '-')
    else (value, if tag.plus then some '+' else none)
  else (value, none)

/-- `writeIntToBuffer`. -/
def writeIntToBuffer (width precision value : ℕ) (tag : Tag) (isSigned : Bool)
    (digits : List Char) (m : Memory) : ℕ × Memory :=
  let (value, signChar) := signOf value tag isSigned
  let length := numberLength digits.length 64 value
  let actualPrecision := if precision ≠ noValue then toInt32 precision else 0
  let length := if precision ≠ noValue ∧ precision % 2 ^ 32 > length then precision % 2 ^ 32
    else length
  let length := if signChar.isSome then length + 1 else length
  let wider := width ≠ noValue ∧ width % 2 ^ 32 > length
  let rightSpace := if wider ∧ tag.dash then width % 2 ^ 32 - length else 0
  let length := if wider then width % 2 ^ 32 else length
  let actualPrecision := if tag.zero then toInt32 (length - if signChar.isSome then 1 else 0)
    else actualPrecision
  let s := putRightSpace buf bufLen rightSpace ⟨length, 0, m⟩
  let below := s.length
  let s := putDigits buf bufLen digits 64 value s
  let s := putExtension buf bufLen s.length (actualPrecision - (below - s.length)) signChar s
  (s.index, s.memory)

end Int

section Strings

variable (buf : Buffer) (bufLen : ℕ)

/-- The precision, or as much of a string as there is. -/
def available {α : Type*} (precision : ℕ) (value : List α) : ℕ :=
  if precision = noValue then value.length else min precision value.length

/-- The padding on the left and on the right of so many characters. -/
def paddings (width count : ℕ) (tag : Tag) : ℕ × ℕ :=
  let width := if width = noValue then count else width
  if width > count then if tag.dash then (0, width - count) else (width - count, 0) else (0, 0)

/-- `writeStringToBuffer`. -/
def writeStringToBuffer (width precision : ℕ) (value : List Char) (tag : Tag) (m : Memory) :
    ℕ × Memory :=
  let precision := available precision value
  let (leftPadding, rightPadding) := paddings width precision tag
  let leftPadding := min leftPadding bufLen
  let m := storeAll buf 0 (List.replicate leftPadding ' ') m
  let bufLen := bufLen - leftPadding
  let precision := min precision bufLen
  let m := storeAll buf leftPadding (value.take precision) m
  let bufLen := bufLen - precision
  let rightPadding := min rightPadding bufLen
  let m := storeAll buf (leftPadding + precision) (List.replicate rightPadding ' ') m
  (leftPadding + precision + rightPadding, m)

/-- `encodeUTF8Char`, with room for three bytes. -/
def encodeUTF8Char (unicode : ℕ) : List Char :=
  if 0x01 ≤ unicode ∧ unicode ≤ 0x7f then [Char.ofNat unicode]
  else if unicode = 0 ∨ 0x80 ≤ unicode ∧ unicode ≤ 0x7ff then
    [Char.ofNat (unicode >>> 6 &&& 0x1f ||| 0xc0), Char.ofNat (unicode &&& 0x3f ||| 0x80)]
  else if 0x800 ≤ unicode ∧ unicode ≤ 0xffff then
    [Char.ofNat (unicode >>> 12 &&& 0x0f ||| 0xe0),
      Char.ofNat (unicode >>> 6 &&& 0x3f ||| 0x80), Char.ofNat (unicode &&& 0x3f ||| 0x80)]
  else []

/-- The loop that counts the characters that fit, and their bytes, both with 32 bits. -/
def countUnicode (precision : ℕ) : ℕ → ℕ → List (BitVec 16) → Option (ℕ × ℕ)
  | chars, bytes, [] => if chars < precision then none else some (chars, bytes)
  | chars, bytes, unit :: units =>
    if chars < precision then
      let sum := (bytes + (encodeUTF8Char unit.toNat).length) % 2 ^ 32
      if sum > bufLen then some (chars, bytes)
      else countUnicode precision ((chars + 1) % 2 ^ 32) sum units
    else some (chars, bytes)

/-- `writeUnicodeStringToBuffer`. Where characters are written that do not fit, the room that
is left wraps around, but then there is no padding on the right. -/
def writeUnicodeStringToBuffer (width precision : ℕ) (value : List (BitVec 16)) (tag : Tag)
    (m : Memory) : Option (ℕ × Memory) :=
  (countUnicode bufLen (available precision value) 0 0 value).map
    fun (numberOfUnicodeChar, numberOfUTF8Char) =>
      let (leftPadding, rightPadding) := paddings width numberOfUTF8Char tag
      let leftPadding := min leftPadding bufLen
      let m := storeAll buf 0 (List.replicate leftPadding ' ') m
      let bufLen := bufLen - leftPadding
      let written := (value.take numberOfUnicodeChar).flatMap fun u => encodeUTF8Char u.toNat
      let m := storeAll buf leftPadding written m
      let bufLen := bufLen - numberOfUTF8Char
      let rightPadding := min rightPadding bufLen
      let m := storeAll buf (leftPadding + written.length) (List.replicate rightPadding ' ') m
      (leftPadding + numberOfUTF8Char + rightPadding, m)

end Strings

/-- `(char)value`. -/
def toChar (value : ℕ) : Char := Char.ofNat (value % 2 ^ 8)

/-- `writeSpec`. -/
def writeSpec (data : FormatData) (spec : Specifier) (result : Buffer) (length : ℕ) (m : Memory) :
    Option (ℕ × Memory) :=
  let value := data.value spec.index
  let width := (data.value spec.widthIndex).number
  let precision := (data.value spec.precisionIndex).number
  let writeInt isSigned digits :=
    some (writeIntToBuffer result length width precision value.number spec.tag isSigned digits m)
  let writeString text := writeStringToBuffer result length width precision text spec.tag m
  match spec.type with
  | [] => some (0, m)
  | letter :: _ =>
    if letter = 'i' ∨ letter = 'd' then writeInt true digitsDec
    else if letter = 'u' then writeInt false digitsDec
    else if letter = 'x' then writeInt false digitsHexLower
    else if letter = 'X' then writeInt false digitsHexUpper
    else if letter = 'p' then
      some (writeIntToBuffer result length 16 16 value.pointer.address {} false digitsHexUpper m)
    else if letter = 'c' then
      if spec.tag.l then
        some (writeString (encodeUTF8Char value.number))
      else
        let (index, m) := writeString [' ']
        if index ≤ length then some (index, store result (index - 1) (toChar value.number) m)
        else some (index, m)
    else if letter = 's' then
      if value.pointer.address ≠ 0 then
        if spec.tag.l then
          writeUnicodeStringToBuffer result length width precision value.pointer.units spec.tag m
        else some (writeString value.pointer.chars)
      else some (writeString ['<', 'N', 'U', 'L', 'L', '>'])
    else some (0, m)

/-- The loop of `writeFormattedString`. Each step makes the format shorter. -/
def writeFormat (data : FormatData) (result : Buffer) (length : ℕ) :
    ℕ → List Char → ℕ → ℕ → Memory → Option (ℕ × Memory)
  | 0, _, _, _, _ => none
  | _ + 1, [], _, index, m => some (index, m)
  | fuel + 1, c :: format, specIndex, index, m =>
    if index < length - 1 then
      if c = '%' then
        if format.head? = some '%' then
          writeFormat data result length fuel format.tail specIndex (index + 1)
            (store result index '%' m)
        else
          let spec := data.spec specIndex
          let room := if result.isSome then length - index else length
          (writeSpec data spec (advance result index) room m).bind fun (written, m) =>
            writeFormat data result length fuel spec.type.tail (specIndex + 1) (index + written) m
      else writeFormat data result length fuel format specIndex (index + 1) (store result index c m)
    else some (index, m)

/-- `writeFormattedString`. -/
def writeFormattedString (format : List Char) (data : FormatData) (result : Buffer) (length : ℕ)
    (m : Memory) : Option (ℕ × Memory) :=
  let length := if result.isNone then 2 ^ 64 - 1 else length
  if length = 0 then some (0, m)
  else (writeFormat data result length (format.length + 1) format 0 0 m).map fun (index, m) =>
    let index := min index (length - 1)
    (if result.isNone then index + 1 else index, store result index nul m)

/-- `omrstr_vprintf`, on memory of which nothing is known. -/
def vprintf (buf : Buffer) (bufLen : ℕ) (format : List Char) (args : List Value) :
    Option (ℕ × Memory) :=
  (parseFormatString (format.length + 1) format .initial).bind fun data =>
    (readValues data data.valueCount 0 args).bind fun data =>
      writeFormattedString format data buf bufLen fun _ => none

example : (vprintf (some 0) 6 ['%', '5', 'd', '%', '%'] [.u64 (2 ^ 32 - 7)]).map
    (fun (n, m) => (n, (List.range 6).map fun i => m i)) =
      some (5, [some ' ', some ' ', some ' ', some '-', some '7', some nul]) := by
  decide +kernel

end OMR.Port.Format
