import Mathlib.Tactic

/-!
# Formatted output of the port library

The functions behind `omrstr_vprintf`, without the values of doubles. A string is the
list of its characters up to the NUL. `none` stands for an access outside the arrays of
`J9FormatData` or outside a string, or for an argument that is not there.
-/

namespace OMR.Port.Format

/-- The `J9FFLAG` and `J9FSPEC` bits of a specifier. -/
structure Tag where
  dash : Bool := false
  hash : Bool := false
  zero : Bool := false
  space : Bool := false
  plus : Bool := false
  ll : Bool := false
  l : Bool := false
deriving DecidableEq

/-- `J9F_NO_VALUE`. -/
def noValue : ℕ := 2 ^ 64 - 1

def maxSpecs : ℕ := 16

def maxArgs : ℕ := maxSpecs * 3

/-- A pointer, with what is found there as a string of characters and as one of 16-bit
units. -/
structure Pointer where
  address : ℕ
  chars : List Char
  units : List (BitVec 16)
deriving DecidableEq

/-- `J9FormatValue`. -/
inductive Value where
  | u64 (value : ℕ)
  | ptr (value : Pointer)
deriving DecidableEq

/-- The member `u64` of the union. -/
def Value.number : Value → ℕ
  | .u64 value => value
  | .ptr value => value.address

/-- The member `ptr` of the union. -/
def Value.pointer : Value → Pointer
  | .u64 value => ⟨value, [], []⟩
  | .ptr value => value

inductive ValueType where
  | unset
  | u64
  | u32
  | dbl
  | ptr
  | immediate
deriving DecidableEq

/-- `J9FormatSpecifier`; the type is the rest of the format from the letter on. -/
structure Specifier where
  tag : Tag
  index : ℕ
  widthIndex : ℕ
  precisionIndex : ℕ
  type : List Char

/-- `J9FormatData`. -/
structure FormatData where
  value : ℕ → Value
  valueType : ℕ → ValueType
  spec : ℕ → Specifier
  valueCount : ℕ
  immediateCount : ℕ
  specCount : ℕ

/-- After `memset`. -/
def FormatData.initial : FormatData :=
  ⟨fun _ => .u64 0, fun _ => .unset, fun _ => ⟨{}, 0, 0, 0, []⟩, 0, 0, 0⟩

/-- `spec[specCount]`, changed. -/
def FormatData.modifySpec (data : FormatData) (f : Specifier → Specifier) : Option FormatData :=
  if data.specCount < maxSpecs then
    some { data with spec := Function.update data.spec data.specCount (f (data.spec data.specCount)) }
  else none

/-- `valueType[index]`, and with it `value[index]`. -/
def FormatData.setValue (data : FormatData) (index : ℕ) (type : ValueType) (value : ℕ) :
    Option FormatData :=
  if index < maxArgs then
    some { data with
      valueType := Function.update data.valueType index type
      value := Function.update data.value index (.u64 value) }
  else none

def FormatData.setType (data : FormatData) (index : ℕ) (type : ValueType) : Option FormatData :=
  if index < maxArgs then
    some { data with valueType := Function.update data.valueType index type }
  else none

section Parser

/-- The value of a digit. -/
def digit (c : Char) : ℕ := c.toNat - '0'.toNat

/-- `parseIndex`, which goes back to the start unless the digits end in a `$`. -/
def parseIndexFrom (start : List Char) : ℕ → List Char → List Char × ℕ
  | _, [] => (start, 0xFF)
  | index, c :: format =>
    if c.isDigit then parseIndexFrom start ((index * 10 + digit c) % 2 ^ 8) format
    else if c = '$' ∧ index > 0 then (format, index - 1)
    else (start, 0xFF)

def parseIndex (format : List Char) : List Char × ℕ := parseIndexFrom format 0 format

/-- `parseTagChar`. -/
def parseTagChar (format : List Char) (data : FormatData) : Option (List Char × FormatData) :=
  let set f rest := (data.modifySpec fun s => { s with tag := f s.tag }).map fun data => (rest, data)
  match format with
  | '0' :: rest => set (fun t => { t with zero := true }) rest
  | ' ' :: rest => set (fun t => { t with space := true }) rest
  | '-' :: rest => set (fun t => { t with dash := true }) rest
  | '+' :: rest => set (fun t => { t with plus := true }) rest
  | '#' :: rest => set (fun t => { t with hash := true }) rest
  | _ => some (format, data)

/-- The loop over digits that a width and a precision share. -/
def parseDigits (anyDigits : Bool) (n : ℕ) : List Char → List Char × Option ℕ
  | [] => ([], if anyDigits then some n else none)
  | c :: format =>
    if c.isDigit then parseDigits true ((n * 10 + digit c) % 2 ^ 32) format
    else (c :: format, if anyDigits then some n else none)

/-- A width or precision that the format gives, or none. -/
def parseImmediate (setIndex : ℕ → Specifier → Specifier) (value : Option ℕ) (data : FormatData) :
    Option FormatData :=
  let immediateCount := data.immediateCount + 1
  let index := maxArgs - immediateCount
  ({ data with immediateCount := immediateCount }.modifySpec (setIndex index)).bind fun data =>
    data.setValue index .immediate (value.getD noValue)

/-- A width or precision that an argument gives, behind the `*`. -/
def parseStar (setIndex : ℕ → Specifier → Specifier) (format : List Char) (data : FormatData) :
    Option (List Char × FormatData) :=
  let (format, index) := parseIndex format
  let index := if index = 0xFF then data.valueCount else index
  (data.modifySpec (setIndex index)).bind fun data =>
    ({ data with valueCount := data.valueCount + 1 }.setValue index .u32 noValue).map fun data =>
      (format, data)

/-- `parseWidth` at the width, and `parsePrecision` behind the point. -/
def parseAmount (setIndex : ℕ → Specifier → Specifier) (format : List Char) (data : FormatData) :
    Option (List Char × FormatData) :=
  match format with
  | '*' :: format => parseStar setIndex format data
  | format =>
    let (rest, value) := parseDigits false 0 format
    (parseImmediate setIndex value data).map fun data => (rest, data)

/-- `parseWidth`. -/
def parseWidth : List Char → FormatData → Option (List Char × FormatData) :=
  parseAmount fun index s => { s with widthIndex := index }

/-- `parsePrecision`. -/
def parsePrecision (format : List Char) (data : FormatData) : Option (List Char × FormatData) :=
  let setIndex := fun index s => { s with precisionIndex := index }
  match format with
  | '.' :: format => parseAmount setIndex format data
  | format => (parseImmediate setIndex none data).map fun data => (format, data)

/-- `parseModifier`, where a `size_t` has 64 bits. -/
def parseModifier (format : List Char) (data : FormatData) : Option (List Char × FormatData) :=
  let set f rest := (data.modifySpec fun s => { s with tag := f s.tag }).map fun data => (rest, data)
  match format with
  | 'z' :: rest => set (fun t => { t with ll := true }) rest
  | 'l' :: 'l' :: rest => set (fun t => { t with ll := true }) rest
  | 'l' :: rest => set (fun t => { t with l := true }) rest
  | _ => some (format, data)

/-- The type of the value that a letter converts. -/
def letterType (tag : Tag) (letter : Char) : Option ValueType :=
  if letter = 'c' then some .u32
  else if letter ∈ ['i', 'd', 'u', 'x', 'X'] then some (if tag.ll then .u64 else .u32)
  else if letter ∈ ['p', 's'] then some .ptr
  else if letter ∈ ['f', 'e', 'E', 'F', 'g', 'G'] then some .dbl
  else none

/-- `parseType`; no format is returned for an unknown letter. -/
def parseType (format : List Char) (data : FormatData) :
    Option (Option (List Char) × FormatData) :=
  let spec := data.spec data.specCount
  let index := if spec.index = 0xFF then data.valueCount else spec.index
  (data.modifySpec fun s => { s with index := index, type := format }).bind fun data =>
    let data := { data with valueCount := data.valueCount + 1 }
    match format with
    | [] => some (none, data)
    | letter :: rest => match letterType spec.tag letter with
      | none => some (none, data)
      | some type => (data.setType index type).map fun data => (some rest, data)

/-- One specifier, behind its `%`. -/
def parseSpec (format : List Char) (data : FormatData) :
    Option (Option (List Char) × FormatData) :=
  let (format, index) := parseIndex format
  (data.modifySpec fun s => { s with index := index }).bind fun data =>
    (parseTagChar format data).bind fun (format, data) =>
      (parseWidth format data).bind fun (format, data) =>
        (parsePrecision format data).bind fun (format, data) =>
          (parseModifier format data).bind fun (format, data) => parseType format data

/-- `parseFormatString`, which stops at an unknown letter. Each step makes the format shorter. -/
def parseFormatString : ℕ → List Char → FormatData → Option FormatData
  | 0, _, _ => none
  | _ + 1, [], data => some data
  | fuel + 1, '%' :: '%' :: format, data => parseFormatString fuel format data
  | fuel + 1, '%' :: format, data => (parseSpec format data).bind fun
    | (none, data) => some data
    | (some format, data) =>
      parseFormatString fuel format { data with specCount := data.specCount + 1 }
  | fuel + 1, _ :: format, data => parseFormatString fuel format data

/-- `va_arg`: the value of the type, if that is the type of the next argument. -/
def ValueType.takes : ValueType → Value → Option Value
  | .u64, .u64 value => if value < 2 ^ 64 then some (.u64 value) else none
  | .u32, .u64 value => if value < 2 ^ 32 then some (.u64 value) else none
  | .ptr, .ptr value => some (.ptr value)
  | _, _ => none

/-- `readValues`, with so many values left. -/
def readValues (data : FormatData) : ℕ → ℕ → List Value → Option FormatData
  | 0, _, _ => some data
  | n + 1, index, args =>
    if data.valueType index = .immediate then readValues data n (index + 1) args
    else match args with
      | [] => none
      | arg :: args => ((data.valueType index).takes arg).bind fun value =>
        readValues { data with value := Function.update data.value index value } n (index + 1) args

end Parser

end OMR.Port.Format
