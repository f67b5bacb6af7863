import OMR.Port.Format

/-!
# Well-formed formats

A format is a sequence of pieces. The parser reads each conversion back from the rendered
format, and the values it asks for are the arguments of the conversions in their order.
-/

namespace OMR.Port.Format

inductive Flag where
  | zero
  | space
  | dash
  | plus
  | hash
deriving DecidableEq

def Flag.char : Flag → Char
  | .zero => '0'
  | .space => ' '
  | .dash => '-'
  | .plus => '+'
  | .hash => '#'

def Flag.set : Flag → Tag → Tag
  | .zero, tag => { tag with zero := true }
  | .space, tag => { tag with space := true }
  | .dash, tag => { tag with dash := true }
  | .plus, tag => { tag with plus := true }
  | .hash, tag => { tag with hash := true }

/-- A width or a precision: its digits, which may be missing, or an argument. -/
inductive Amount where
  | number (digits : List Char)
  | star (value : ℕ)
deriving DecidableEq

/-- The number that digits stand for. -/
def digitsValue (n : ℕ) (digits : List Char) : ℕ :=
  digits.foldl (fun n c => n * 10 + digit c) n

def Amount.render : Amount → List Char
  | .number digits => digits
  | .star _ => ['*']

def Amount.arguments : Amount → List Value
  | .number _ => []
  | .star value => [.u64 value]

/-- What the writers get. -/
def Amount.value : Amount → ℕ
  | .number [] => noValue
  | .number digits => digitsValue 0 digits
  | .star value => value

/-- Below 2^31. -/
def Amount.WellFormed : Amount → Prop
  | .number digits => (∀ c ∈ digits, c.isDigit) ∧ digitsValue 0 digits < 2 ^ 31
  | .star value => value < 2 ^ 31

inductive Modifier where
  | none
  | l
  | ll
  | z
deriving DecidableEq

def Modifier.render : Modifier → List Char
  | .none => []
  | .l => ['l']
  | .ll => ['l', 'l']
  | .z => ['z']

def Modifier.set : Modifier → Tag → Tag
  | .none, tag => tag
  | .l, tag => { tag with l := true }
  | .ll, tag => { tag with ll := true }
  | .z, tag => { tag with ll := true }

/-- A conversion with the argument that it converts. -/
structure Conversion where
  flag : Option Flag
  width : Amount
  precision : Option Amount
  modifier : Modifier
  letter : Char
  argument : Value

namespace Conversion

variable (c : Conversion)

def tag : Tag := c.modifier.set (c.flag.elim {} fun flag => flag.set {})

def precisionAmount : Amount := c.precision.getD (.number [])

def renderPrecision : List Char := c.precision.elim [] fun amount => '.' :: amount.render

/-- All but the letter, behind the `%`. -/
def renderFront : List Char :=
  (c.flag.map Flag.char).toList ++ c.width.render ++ c.renderPrecision ++ c.modifier.render

def arguments : List Value :=
  c.width.arguments ++ c.precisionAmount.arguments ++ [c.argument]

/-- Without a flag, a width does not start with the flag `0`. The argument has the type that
the letter asks for. -/
structure WellFormed : Prop where
  width : c.width.WellFormed
  precision : c.precisionAmount.WellFormed
  unflagged : c.flag = none → c.width.render.head? ≠ some '0'
  typed : ∃ type, letterType c.tag c.letter = some type ∧ type.takes c.argument = some c.argument

end Conversion

inductive Piece where
  | literal (c : Char)
  | percent
  | conversion (c : Conversion)

def Piece.render : Piece → List Char
  | .literal c => [c]
  | .percent => ['%', '%']
  | .conversion c => '%' :: (c.renderFront ++ [c.letter])

def Piece.arguments : Piece → List Value
  | .conversion c => c.arguments
  | _ => []

def Piece.WellFormed : Piece → Prop
  | .literal c => c ≠ '%'
  | .percent => True
  | .conversion c => c.WellFormed

/-- The format string. -/
def render (pieces : List Piece) : List Char := pieces.flatMap Piece.render

/-- The arguments, in the order the format asks for them. -/
def arguments (pieces : List Piece) : List Value := pieces.flatMap Piece.arguments

/-- The conversions, each with the rest of the format. -/
def conversions : List Piece → List (Conversion × List Char)
  | [] => []
  | .conversion c :: pieces => (c, render pieces) :: conversions pieces
  | _ :: pieces => conversions pieces

/-- At most 16 conversions, all well formed. -/
structure WellFormed (pieces : List Piece) : Prop where
  piece : ∀ piece ∈ pieces, piece.WellFormed
  count : (conversions pieces).length ≤ maxSpecs

section Scanning

/-- A list of characters is looked through, not all characters there are. -/
theorem forall_mem_of_all {p : Char → Prop} [DecidablePred p] {l : List Char}
    (h : l.all fun c => decide (p c)) : ∀ c ∈ l, p c :=
  fun c hc => of_decide_eq_true (List.all_eq_true.mp h c hc)

/-- The letters of the conversions. -/
def letters : List Char := ['c', 'i', 'd', 'u', 'x', 'X', 'p', 's']

/-- What can stand behind a width. -/
def widthEnds : List Char := ['.', 'l', 'z'] ++ letters

/-- No argument has the type of the other letters. -/
theorem mem_letters {tag : Tag} {letter : Char} {type : ValueType} {arg : Value}
    (h : letterType tag letter = some type) (htakes : type.takes arg = some arg) :
    letter ∈ letters := by
  by_contra hmem
  have hc : letter ≠ 'c' := fun hc => hmem (hc ▸ by decide)
  have hint : letter ∉ ['i', 'd', 'u', 'x', 'X'] := fun hint =>
    hmem ((show ∀ l ∈ ['i', 'd', 'u', 'x', 'X'], l ∈ letters from forall_mem_of_all (by decide))
      letter hint)
  have hptr : letter ∉ ['p', 's'] := fun hptr =>
    hmem ((show ∀ l ∈ ['p', 's'], l ∈ letters from forall_mem_of_all (by decide)) letter hptr)
  rw [letterType, if_neg hc, if_neg hint, if_neg hptr] at h
  split at h
  · obtain rfl := Option.some.inj h
    cases htakes
  · exact Option.some_ne_none type h.symm

theorem mem_widthEnds {letter : Char} (h : letter ∈ letters) : letter ∈ widthEnds :=
  List.mem_append_right _ h

theorem isDigit_widthEnds : ∀ c ∈ widthEnds, c.isDigit = false :=
  forall_mem_of_all (by decide)

theorem ne_of_mem_widthEnds :
    ∀ c ∈ widthEnds, c ∉ ['$', '*', '%', '0', ' ', '-', '+', '#'] :=
  forall_mem_of_all (by decide)

theorem ne_of_mem_letters : ∀ c ∈ letters, c ∉ ['.', 'l', 'z'] :=
  forall_mem_of_all (by decide)

theorem ne_of_isDigit {c : Char} (h : c.isDigit) : c ∉ ['$', '*', '%', ' ', '-', '+', '#'] := by
  intro hmem
  have := (show ∀ c ∈ ['$', '*', '%', ' ', '-', '+', '#'], c.isDigit = false from
    forall_mem_of_all (by decide)) c hmem
  simp [h] at this

theorem parseIndexFrom_of_not_mem (start : List Char) (n : ℕ) {front rest : List Char} {c : Char}
    (hfront : '$' ∉ front) (hdigit : c.isDigit = false) (hdollar : c ≠ '$') :
    parseIndexFrom start n (front ++ c :: rest) = (start, 0xFF) := by
  induction front generalizing n with
  | nil => simp [parseIndexFrom, hdigit, hdollar]
  | cons d front ih =>
    have hd : d ≠ '$' := fun h => hfront (h ▸ List.mem_cons_self)
    rw [List.cons_append, parseIndexFrom]
    split
    · exact ih _ fun h => hfront (List.mem_cons_of_mem _ h)
    · rw [if_neg fun h => hd h.1]

theorem le_digitsValue (n : ℕ) (digits : List Char) : n ≤ digitsValue n digits := by
  induction digits generalizing n with
  | nil => exact le_rfl
  | cons c digits ih => exact Nat.le_trans (by omega) (ih (n * 10 + digit c))

/-- The number does not wrap around before its last digit. -/
theorem parseDigits_append {anyDigits : Bool} {n : ℕ} {digits rest : List Char} {c : Char}
    (hdigits : ∀ d ∈ digits, d.isDigit) (hsmall : digitsValue n digits < 2 ^ 32)
    (hdigit : c.isDigit = false) :
    parseDigits anyDigits n (digits ++ c :: rest) =
      (c :: rest, if anyDigits ∨ digits ≠ [] then some (digitsValue n digits) else none) := by
  induction digits generalizing anyDigits n with
  | nil => simp [parseDigits, hdigit, digitsValue]
  | cons d digits ih =>
    have hd : d.isDigit := hdigits d List.mem_cons_self
    have hnext : digitsValue (n * 10 + digit d) digits < 2 ^ 32 := hsmall
    have hmod : (n * 10 + digit d) % 2 ^ 32 = n * 10 + digit d :=
      Nat.mod_eq_of_lt (Nat.lt_of_le_of_lt (le_digitsValue _ digits) hnext)
    rw [List.cons_append, parseDigits, if_pos hd, hmod,
      ih (fun d h => hdigits d (List.mem_cons_of_mem _ h)) hnext]
    simp [digitsValue]

end Scanning

section Slots

/-- The slots from the front are for these arguments. -/
structure Slots (data : FormatData) (args : List Value) : Prop where
  valueCount_eq : data.valueCount = args.length
  room : data.valueCount + data.immediateCount ≤ maxArgs
  takes : ∀ i arg, args[i]? = some arg → (data.valueType i).takes arg = some arg

/-- A slot for an argument, or one from the back with the value in it. -/
def Provides (data : FormatData) (args : List Value) (index : ℕ) (value : Value) : Prop :=
  args[index]? = some value ∨
    maxArgs - data.immediateCount ≤ index ∧ data.valueType index = .immediate ∧
      data.value index = value

/-- One more slot was taken, for the specifier that is being parsed. -/
structure Allocates (setIndex : ℕ → Specifier → Specifier) (value : Value) (data data' : FormatData)
    (args args' : List Value) : Prop where
  slots : Slots data' args'
  specCount_eq : data'.specCount = data.specCount
  count_eq : data'.valueCount + data'.immediateCount = data.valueCount + data.immediateCount + 1
  spec_eq : ∃ index, Provides data' args' index value ∧ data'.spec =
    Function.update data.spec data.specCount (setIndex index (data.spec data.specCount))
  keeps : ∀ index value, Provides data args index value → Provides data' args' index value

variable {data data' : FormatData} {args : List Value} {setIndex : ℕ → Specifier → Specifier}

/-- The next slot from the front. -/
theorem allocates_argument (hslots : Slots data args)
    (hroom : data.valueCount + data.immediateCount < maxArgs) {arg : Value} {type : ValueType}
    (htakes : type.takes arg = some arg)
    (hspec : data'.spec = Function.update data.spec data.specCount
      (setIndex data.valueCount (data.spec data.specCount)))
    (hspecCount : data'.specCount = data.specCount)
    (hvalueCount : data'.valueCount = data.valueCount + 1)
    (himmediate : data'.immediateCount = data.immediateCount)
    (htype : data'.valueType = Function.update data.valueType data.valueCount type)
    (hvalue : ∀ i, i ≠ data.valueCount → data'.value i = data.value i) :
    Allocates setIndex arg data data' args (args ++ [arg]) where
  slots := by
    refine ⟨?_, by omega, fun i arg' hget => ?_⟩
    · rw [hvalueCount, hslots.valueCount_eq, List.length_append, List.length_singleton]
    · rw [htype]
      by_cases hi : i = data.valueCount
      · subst hi
        rw [hslots.valueCount_eq, List.getElem?_concat_length, Option.some_inj] at hget
        rw [Function.update_self, ← hget, htakes]
      · have hlt : i < (args ++ [arg]).length := (List.getElem?_eq_some_iff.mp hget).1
        have hi' : i < args.length := by
          rw [List.length_append, List.length_singleton] at hlt
          have := hslots.valueCount_eq
          omega
        rw [List.getElem?_append_left hi'] at hget
        rw [Function.update_of_ne hi]
        exact hslots.takes i arg' hget
  specCount_eq := hspecCount
  count_eq := by omega
  spec_eq := by
    refine ⟨data.valueCount, .inl ?_, hspec⟩
    rw [hslots.valueCount_eq, List.getElem?_concat_length]
  keeps := by
    rintro index value (hget | ⟨hback, hkind, hval⟩)
    · refine .inl ?_
      rw [List.getElem?_append_left (List.getElem?_eq_some_iff.mp hget).1, hget]
    · have hne : index ≠ data.valueCount := by omega
      refine .inr ⟨himmediate ▸ hback, ?_, (hvalue index hne).trans hval⟩
      rw [htype, Function.update_of_ne hne, hkind]

/-- The next slot from the back. -/
theorem parseImmediate_allocates (hslots : Slots data args)
    (hroom : data.valueCount + data.immediateCount < maxArgs) (hspec : data.specCount < maxSpecs)
    (value : Option ℕ) : ∃ data', parseImmediate setIndex value data = some data' ∧
      Allocates setIndex (.u64 (value.getD noValue)) data data' args args := by
  have hindex : maxArgs - (data.immediateCount + 1) < maxArgs := by
    rw [maxArgs, maxSpecs]
    omega
  let index := maxArgs - (data.immediateCount + 1)
  refine ⟨{ data with
    immediateCount := data.immediateCount + 1
    spec := Function.update data.spec data.specCount (setIndex index (data.spec data.specCount))
    valueType := Function.update data.valueType index .immediate
    value := Function.update data.value index (.u64 (value.getD noValue)) }, ?_, ?_⟩
  · simp only [parseImmediate, FormatData.modifySpec, hspec, if_true, Option.bind_some,
      FormatData.setValue, hindex, index]
  · have hlow : ∀ i arg, args[i]? = some arg → i ≠ maxArgs - (data.immediateCount + 1) := by
      intro i arg hget
      have := (List.getElem?_eq_some_iff.mp hget).1
      have := hslots.valueCount_eq
      omega
    refine ⟨⟨hslots.valueCount_eq, ?_, fun i arg hget => ?_⟩, rfl, rfl, ⟨_, .inr ?_, rfl⟩, ?_⟩
    · change data.valueCount + (data.immediateCount + 1) ≤ maxArgs
      omega
    · change (Function.update data.valueType _ _ i).takes arg = some arg
      rw [Function.update_of_ne (hlow i arg hget)]
      exact hslots.takes i arg hget
    · exact ⟨le_rfl, Function.update_self .., Function.update_self ..⟩
    · rintro index value (hget | ⟨hback, hkind, hval⟩)
      · exact .inl hget
      · have hne : index ≠ maxArgs - (data.immediateCount + 1) := by omega
        refine .inr ⟨?_, ?_, ?_⟩
        · change maxArgs - (data.immediateCount + 1) ≤ index
          omega
        · exact (Function.update_of_ne hne ..).trans hkind
        · exact (Function.update_of_ne hne ..).trans hval

/-- `parseAmount` where there is no `*`. -/
theorem parseAmount_of_ne {format : List Char} (h : format.head? ≠ some '*') :
    parseAmount setIndex format data =
      (parseImmediate setIndex (parseDigits false 0 format).2 data).map fun data =>
        ((parseDigits false 0 format).1, data) := by
  rw [parseAmount]
  rintro rest rfl
  exact h rfl

theorem parseAmount_render (hslots : Slots data args)
    (hroom : data.valueCount + data.immediateCount < maxArgs) (hspec : data.specCount < maxSpecs)
    {amount : Amount} (hwf : amount.WellFormed) {c : Char} (hc : c ∈ widthEnds)
    (rest : List Char) : ∃ data',
      parseAmount setIndex (amount.render ++ c :: rest) data = some (c :: rest, data') ∧
        Allocates setIndex (.u64 amount.value) data data' args (args ++ amount.arguments) := by
  have hdigit := isDigit_widthEnds c hc
  have hne := ne_of_mem_widthEnds c hc
  cases amount with
  | number digits =>
    have hhead : (digits ++ c :: rest).head? ≠ some '*' := by
      cases digits with
      | nil => exact fun h => hne (by simp [Option.some_inj.mp h])
      | cons d digits =>
        have := ne_of_isDigit (hwf.1 d List.mem_cons_self)
        exact fun h => this (by simp [Option.some_inj.mp h])
    have hsmall : digitsValue 0 digits < 2 ^ 32 := Nat.lt_trans hwf.2 (by decide)
    obtain ⟨data', hparse, halloc⟩ := @parseImmediate_allocates data args setIndex hslots hroom
      hspec (parseDigits false 0 (digits ++ c :: rest)).2
    refine ⟨data', ?_, ?_⟩
    · rw [Amount.render, parseAmount_of_ne hhead, hparse, Option.map_some,
        parseDigits_append hwf.1 hsmall hdigit]
    · rw [parseDigits_append hwf.1 hsmall hdigit] at halloc
      rw [Amount.arguments, List.append_nil]
      cases digits with
      | nil => exact halloc
      | cons d digits => exact halloc
  | star value =>
    have hindex : parseIndex (c :: rest) = (c :: rest, 0xFF) :=
      parseIndexFrom_of_not_mem (c :: rest) 0 (List.not_mem_nil) hdigit fun h =>
        hne (by simp [h])
    have hfront : data.valueCount < maxArgs := by omega
    have hvalue : value < 2 ^ 32 := Nat.lt_trans hwf (by decide)
    refine ⟨{ data with
      valueCount := data.valueCount + 1
      spec := Function.update data.spec data.specCount
        (setIndex data.valueCount (data.spec data.specCount))
      valueType := Function.update data.valueType data.valueCount .u32
      value := Function.update data.value data.valueCount (.u64 noValue) }, ?_, ?_⟩
    · simp only [Amount.render, List.cons_append, List.nil_append, parseAmount, parseStar, hindex,
        FormatData.modifySpec, hspec, if_true, Option.bind_some, FormatData.setValue, hfront,
        Option.map_some]
    · have htakes : ValueType.u32.takes (.u64 value) = some (.u64 value) := if_pos hvalue
      exact allocates_argument hslots hroom htakes rfl rfl rfl rfl rfl
        fun i hi => Function.update_of_ne hi ..

/-- Only the specifier that is being parsed changes. -/
theorem Allocates.spec_of_ne {value : Value} {args' : List Value} {k : ℕ}
    (h : Allocates setIndex value data data' args args') (hk : k ≠ data.specCount) :
    data'.spec k = data.spec k := by
  obtain ⟨index, -, hspec⟩ := h.spec_eq
  rw [hspec, Function.update_of_ne hk]

theorem Allocates.spec_self {value : Value} {args' : List Value}
    (h : Allocates setIndex value data data' args args') :
    ∃ index, Provides data' args' index value ∧
      data'.spec data.specCount = setIndex index (data.spec data.specCount) := by
  obtain ⟨index, hprovides, hspec⟩ := h.spec_eq
  exact ⟨index, hprovides, by rw [hspec, Function.update_self]⟩

theorem Allocates.roomFor {value : Value} {args' : List Value} {n : ℕ}
    (h : Allocates setIndex value data data' args args')
    (hroom : data.valueCount + data.immediateCount + (n + 1) ≤ maxArgs) :
    data'.valueCount + data'.immediateCount + n ≤ maxArgs := by
  have := h.count_eq
  omega

end Slots

section Specifiers

/-- `modifySpec` where there is a `spec[specCount]`. -/
def FormatData.modify (data : FormatData) (f : Specifier → Specifier) : FormatData :=
  { data with spec := Function.update data.spec data.specCount (f (data.spec data.specCount)) }

theorem FormatData.modifySpec_eq {data : FormatData} (hspec : data.specCount < maxSpecs)
    (f : Specifier → Specifier) : data.modifySpec f = some (data.modify f) := by
  rw [FormatData.modifySpec, if_pos hspec, FormatData.modify]

@[simp] theorem FormatData.modify_spec_self (data : FormatData) (f : Specifier → Specifier) :
    (data.modify f).spec data.specCount = f (data.spec data.specCount) :=
  Function.update_self ..

theorem FormatData.modify_spec_of_ne (data : FormatData) (f : Specifier → Specifier) {k : ℕ}
    (hk : k ≠ data.specCount) : (data.modify f).spec k = data.spec k :=
  Function.update_of_ne hk ..

/-- A specifier with another tag. -/
def Specifier.setTag (f : Tag → Tag) (s : Specifier) : Specifier := { s with tag := f s.tag }

theorem FormatData.modify_setTag_id (data : FormatData) :
    data.modify (Specifier.setTag id) = data := by
  have hsame : Function.update data.spec data.specCount (data.spec data.specCount) = data.spec :=
    Function.update_eq_self ..
  exact congrArg (fun spec => { data with spec := spec }) hsame

theorem parseTagChar_render {data : FormatData} (hspec : data.specCount < maxSpecs)
    (flag : Option Flag) {rest : List Char}
    (hrest : flag = none → ∀ c ∈ rest.head?, c ∉ ['0', ' ', '-', '+', '#']) :
    parseTagChar ((flag.map Flag.char).toList ++ rest) data =
      some (rest, data.modify (Specifier.setTag (flag.elim id Flag.set))) := by
  cases flag with
  | some flag =>
    cases flag <;>
      exact congrArg (Option.map _) (FormatData.modifySpec_eq hspec _)
  | none =>
    have hplain : parseTagChar rest data = some (rest, data) := by
      rw [parseTagChar]
      all_goals
        rintro rest' rfl
        exact hrest rfl _ rfl (by decide)
    exact hplain.trans (by rw [Option.elim_none, FormatData.modify_setTag_id])

theorem parseModifier_render {data : FormatData} (hspec : data.specCount < maxSpecs)
    (modifier : Modifier) {c : Char} (hc : c ∈ letters) (rest : List Char) :
    parseModifier (modifier.render ++ c :: rest) data =
      some (c :: rest, data.modify (Specifier.setTag modifier.set)) := by
  have hne := ne_of_mem_letters c hc
  have hl : c ≠ 'l' := fun h => hne (by simp [h])
  have hz : c ≠ 'z' := fun h => hne (by simp [h])
  have hplain : parseModifier (c :: rest) data = some (c :: rest, data) := by
    rw [parseModifier]
    · rintro rest' ⟨⟩
      exact hz rfl
    · rintro rest' ⟨⟩
      exact hl rfl
    · rintro rest' ⟨⟩
      exact hl rfl
  cases modifier with
  | none => exact hplain.trans (by rw [show Modifier.none.set = id from rfl,
      FormatData.modify_setTag_id])
  | l =>
    have hone : parseModifier ('l' :: c :: rest) data =
        (data.modifySpec (Specifier.setTag Modifier.l.set)).map fun data => (c :: rest, data) := by
      rw [parseModifier]
      · rfl
      · rintro rest' ⟨⟩
        exact hl rfl
    exact hone.trans (congrArg (Option.map _) (FormatData.modifySpec_eq hspec _))
  | ll => exact congrArg (Option.map _) (FormatData.modifySpec_eq hspec _)
  | z => exact congrArg (Option.map _) (FormatData.modifySpec_eq hspec _)

/-- A specifier stands for a conversion in front of the rest of the format. -/
structure Reads (data : FormatData) (args : List Value) (spec : Specifier) (c : Conversion)
    (rest : List Char) : Prop where
  tag_eq : spec.tag = c.tag
  type_eq : spec.type = c.letter :: rest
  width : Provides data args spec.widthIndex (.u64 c.width.value)
  precision : Provides data args spec.precisionIndex (.u64 c.precisionAmount.value)
  argument : Provides data args spec.index c.argument

variable {data : FormatData} {args : List Value} {c : Conversion}

/-- What stands behind the precision. -/
theorem modifier_head (modifier : Modifier) {letter : Char} (hletter : letter ∈ letters)
    (rest : List Char) : ∃ d rest', modifier.render ++ letter :: rest = d :: rest' ∧
      d ∈ widthEnds ∧ d ≠ '.' := by
  cases modifier with
  | none => exact ⟨letter, rest, rfl, mem_widthEnds hletter, fun h =>
      ne_of_mem_letters letter hletter (by simp [h])⟩
  | l => exact ⟨'l', _, rfl, by decide, by decide⟩
  | ll => exact ⟨'l', _, rfl, by decide, by decide⟩
  | z => exact ⟨'z', _, rfl, by decide, by decide⟩

/-- What stands behind the width. -/
theorem precision_head (c : Conversion) (hletter : c.letter ∈ letters) (rest : List Char) :
    ∃ d rest', c.renderPrecision ++ (c.modifier.render ++ c.letter :: rest) = d :: rest' ∧
      d ∈ widthEnds := by
  cases hprecision : c.precision with
  | none =>
    obtain ⟨d, rest', hhead, hd, -⟩ := modifier_head c.modifier hletter rest
    exact ⟨d, rest', by rw [Conversion.renderPrecision, hprecision]; exact hhead, hd⟩
  | some amount =>
    exact ⟨'.', _, by rw [Conversion.renderPrecision, hprecision]; rfl, by decide⟩

theorem not_mem_render {x : Char} (hx : x ∈ ['$', '%']) {amount : Amount}
    (hwf : amount.WellFormed) : x ∉ amount.render := by
  intro h
  cases amount with
  | number digits =>
    refine ne_of_isDigit (hwf.1 x h) ?_
    exact (show ∀ x ∈ ['$', '%'], x ∈ ['$', '*', '%', ' ', '-', '+', '#'] from
      forall_mem_of_all (by decide)) x hx
  | star value =>
    rw [List.mem_singleton.mp h] at hx
    exact absurd hx (by decide)

theorem not_mem_renderFront {x : Char} (hx : x ∈ ['$', '%']) (hwf : c.WellFormed) :
    x ∉ c.renderFront := by
  have hflag : x ∉ (c.flag.map Flag.char).toList := by
    rcases c.flag with _ | flag
    · exact List.not_mem_nil
    · exact (show ∀ x ∈ ['$', '%'], x ∉ [flag.char] from
        forall_mem_of_all (by cases flag <;> decide)) x hx
  have hprecision : x ∉ c.renderPrecision := by
    have hamount := hwf.precision
    rw [Conversion.precisionAmount] at hamount
    rw [Conversion.renderPrecision]
    cases hprecision : c.precision with
    | none => exact List.not_mem_nil
    | some amount =>
      rw [hprecision] at hamount
      intro h
      rcases List.mem_cons.mp h with h | h
      · rw [h] at hx
        exact absurd hx (by decide)
      · exact not_mem_render hx hamount h
  have hmodifier : x ∉ c.modifier.render :=
    (show ∀ x ∈ ['$', '%'], x ∉ c.modifier.render from
      forall_mem_of_all (by cases c.modifier <;> decide)) x hx
  simp only [Conversion.renderFront, List.mem_append, not_or]
  exact ⟨⟨⟨hflag, not_mem_render hx hwf.width⟩, hprecision⟩, hmodifier⟩

/-- No second `%` follows the first. -/
theorem conversion_head (hwf : c.WellFormed) (rest : List Char) :
    ∃ d rest', c.renderFront ++ c.letter :: rest = d :: rest' ∧ d ≠ '%' := by
  obtain ⟨type, hletter, htakes⟩ := hwf.typed
  have hpercent := not_mem_renderFront (show '%' ∈ ['$', '%'] by decide) hwf
  cases hfront : c.renderFront with
  | nil =>
    have hne := ne_of_mem_widthEnds _ (mem_widthEnds (mem_letters hletter htakes))
    exact ⟨c.letter, rest, rfl, fun h => hne (by simp [h])⟩
  | cons d front =>
    rw [hfront] at hpercent
    exact ⟨d, _, rfl, fun h => hpercent (by simp [h])⟩

theorem parsePrecision_render (hslots : Slots data args)
    (hroom : data.valueCount + data.immediateCount < maxArgs) (hspec : data.specCount < maxSpecs)
    (hwf : c.WellFormed) (hletter : c.letter ∈ letters) (rest : List Char) : ∃ data',
      parsePrecision (c.renderPrecision ++ (c.modifier.render ++ c.letter :: rest)) data =
        some (c.modifier.render ++ c.letter :: rest, data') ∧
      Allocates (fun index s => { s with precisionIndex := index }) (.u64 c.precisionAmount.value)
        data data' args (args ++ c.precisionAmount.arguments) := by
  obtain ⟨d, rest', hhead, hd, hdot⟩ := modifier_head c.modifier hletter rest
  have hamount := hwf.precision
  rw [hhead]
  rw [Conversion.precisionAmount] at hamount ⊢
  rw [Conversion.renderPrecision]
  cases hprecision : c.precision with
  | none =>
    obtain ⟨data', hparse, halloc⟩ := @parseImmediate_allocates data args
      (fun index s => { s with precisionIndex := index }) hslots hroom hspec none
    have hargs : args ++ (Amount.number []).arguments = args := List.append_nil args
    refine ⟨data', ?_, hargs.symm ▸ halloc⟩
    have hplain : parsePrecision (d :: rest') data =
        (parseImmediate (fun index s => { s with precisionIndex := index }) none data).map
          fun data => (d :: rest', data) := by
      rw [parsePrecision]
      rintro rest'' ⟨⟩
      exact hdot rfl
    exact hplain.trans (by rw [hparse, Option.map_some])
  | some amount =>
    rw [hprecision] at hamount
    exact parseAmount_render hslots hroom hspec hamount hd rest'

theorem parseWidth_render (hslots : Slots data args)
    (hroom : data.valueCount + data.immediateCount < maxArgs) (hspec : data.specCount < maxSpecs)
    (hwf : c.WellFormed) (hletter : c.letter ∈ letters) (rest : List Char) : ∃ data',
      parseWidth (c.width.render ++
          (c.renderPrecision ++ (c.modifier.render ++ c.letter :: rest))) data =
        some (c.renderPrecision ++ (c.modifier.render ++ c.letter :: rest), data') ∧
      Allocates (fun index s => { s with widthIndex := index }) (.u64 c.width.value)
        data data' args (args ++ c.width.arguments) := by
  obtain ⟨d, rest', hhead, hd⟩ := precision_head c hletter rest
  rw [hhead]
  exact parseAmount_render hslots hroom hspec hwf.width hd rest'

theorem parseType_render (hslots : Slots data args)
    (hroom : data.valueCount + data.immediateCount < maxArgs) (hspec : data.specCount < maxSpecs)
    {tag : Tag} (htag : (data.spec data.specCount).tag = tag)
    (hindex : (data.spec data.specCount).index = 0xFF) {letter : Char} {arg : Value}
    (htyped : ∃ type, letterType tag letter = some type ∧ type.takes arg = some arg)
    (rest : List Char) : ∃ data',
      parseType (letter :: rest) data = some (some rest, data') ∧
      Allocates (fun index s => { s with index := index, type := letter :: rest }) arg
        data data' args (args ++ [arg]) := by
  obtain ⟨type, hletter, htakes⟩ := htyped
  have hfront : data.valueCount < maxArgs := by omega
  refine ⟨{ data with
    valueCount := data.valueCount + 1
    spec := Function.update data.spec data.specCount
      { data.spec data.specCount with index := data.valueCount, type := letter :: rest }
    valueType := Function.update data.valueType data.valueCount type }, ?_, ?_⟩
  · rw [parseType, htag, hindex, if_pos rfl, FormatData.modifySpec_eq hspec]
    simp only [Option.bind_some, hletter, FormatData.setType, FormatData.modify, hfront, if_true,
      Option.map_some]
  · exact allocates_argument hslots hroom htakes rfl rfl rfl rfl rfl fun i _ => rfl

/-- A width without a flag does not start like a flag. -/
theorem width_head (hwf : c.WellFormed) (hnone : c.flag = none) (hletter : c.letter ∈ letters)
    (rest : List Char) :
    ∀ first ∈ (c.width.render ++
      (c.renderPrecision ++ (c.modifier.render ++ c.letter :: rest))).head?,
      first ∉ ['0', ' ', '-', '+', '#'] := by
  obtain ⟨d, rest', hhead, hd⟩ := precision_head c hletter rest
  have hzero := hwf.unflagged hnone
  have hwidth := hwf.width
  rw [hhead]
  rintro first hfirst hmem
  cases hamount : c.width with
  | star value =>
    rw [hamount] at hfirst
    cases Option.some_inj.mp hfirst
    exact absurd hmem (by decide)
  | number digits =>
    rw [hamount] at hfirst hzero hwidth
    cases digits with
    | nil =>
      cases Option.some_inj.mp hfirst
      refine ne_of_mem_widthEnds d hd ?_
      exact List.mem_cons_of_mem _ (List.mem_cons_of_mem _ (List.mem_cons_of_mem _ hmem))
    | cons e digits =>
      cases Option.some_inj.mp hfirst
      rcases List.mem_cons.mp hmem with h | h
      · exact hzero (congrArg some h)
      · refine ne_of_isDigit (hwidth.1 first List.mem_cons_self) ?_
        exact List.mem_cons_of_mem _ (List.mem_cons_of_mem _ (List.mem_cons_of_mem _ h))

theorem parseSpec_render (hslots : Slots data args)
    (hroom : data.valueCount + data.immediateCount + 3 ≤ maxArgs)
    (hspec : data.specCount < maxSpecs) (hfresh : (data.spec data.specCount).tag = {})
    (hwf : c.WellFormed) (rest : List Char) : ∃ data',
      parseSpec (c.renderFront ++ c.letter :: rest) data = some (some rest, data') ∧
      Slots data' (args ++ c.arguments) ∧
      data'.specCount = data.specCount ∧
      data'.valueCount + data'.immediateCount = data.valueCount + data.immediateCount + 3 ∧
      (∀ k, k ≠ data.specCount → data'.spec k = data.spec k) ∧
      Reads data' (args ++ c.arguments) (data'.spec data.specCount) c rest ∧
      ∀ index value, Provides data args index value →
        Provides data' (args ++ c.arguments) index value := by
  obtain ⟨type, hletterType, htakes⟩ := hwf.typed
  have hletter := mem_letters hletterType htakes
  have hindex : parseIndex (c.renderFront ++ c.letter :: rest) =
      (c.renderFront ++ c.letter :: rest, 0xFF) := by
    have hend := mem_widthEnds hletter
    exact parseIndexFrom_of_not_mem _ 0 (not_mem_renderFront (by decide) hwf) (isDigit_widthEnds _ hend)
      fun h => ne_of_mem_widthEnds _ hend (by simp [h])
  -- After the index and the flag.
  let start := (data.modify fun s => { s with index := 0xFF }).modify
    (Specifier.setTag (c.flag.elim id Flag.set))
  have hstart : Slots start args := ⟨hslots.valueCount_eq, hslots.room, hslots.takes⟩
  have hflag : parseTagChar (c.renderFront ++ c.letter :: rest)
      (data.modify fun s => { s with index := 0xFF }) =
        some (c.width.render ++ (c.renderPrecision ++ (c.modifier.render ++ c.letter :: rest)),
          start) := by
    have hfront : c.renderFront ++ c.letter :: rest = (c.flag.map Flag.char).toList ++
        (c.width.render ++ (c.renderPrecision ++ (c.modifier.render ++ c.letter :: rest))) := by
      simp only [Conversion.renderFront, List.append_assoc]
    rw [hfront]
    exact parseTagChar_render (by exact hspec) c.flag fun hnone => width_head hwf hnone hletter rest
  have hroomStart : start.valueCount + start.immediateCount + (2 + 1) ≤ maxArgs := hroom
  obtain ⟨afterWidth, hwidth, hallocWidth⟩ :=
    parseWidth_render hstart (by omega) hspec hwf hletter rest
  have hroomWidth := hallocWidth.roomFor hroomStart
  obtain ⟨afterPrecision, hprecision, hallocPrecision⟩ :=
    parsePrecision_render hallocWidth.slots (by omega) (hallocWidth.specCount_eq ▸ hspec) hwf
      hletter rest
  have hroomPrecision := hallocPrecision.roomFor (n := 1) hroomWidth
  have hcount : afterPrecision.specCount = data.specCount :=
    hallocPrecision.specCount_eq.trans hallocWidth.specCount_eq
  have hspecPrecision : afterPrecision.specCount < maxSpecs := hcount ▸ hspec
  have hmodifier := parseModifier_render hspecPrecision c.modifier hletter rest
  -- After the modifier.
  let modified := afterPrecision.modify (Specifier.setTag c.modifier.set)
  have hmodified : Slots modified (args ++ c.width.arguments ++ c.precisionAmount.arguments) :=
    ⟨hallocPrecision.slots.valueCount_eq, hallocPrecision.slots.room, hallocPrecision.slots.takes⟩
  obtain ⟨w, hw, hspecWidth⟩ := hallocWidth.spec_self
  obtain ⟨p, hp, hspecPrecisions⟩ := hallocPrecision.spec_self
  have hstartCount : start.specCount = data.specCount := rfl
  rw [hallocWidth.specCount_eq, hstartCount] at hspecPrecisions
  rw [hstartCount] at hspecWidth
  have hlast : modified.spec modified.specCount = { data.spec data.specCount with
      index := 0xFF
      widthIndex := w
      precisionIndex := p
      tag := c.tag } := by
    have htag : c.tag = c.modifier.set (c.flag.elim id Flag.set (data.spec data.specCount).tag) := by
      rw [hfresh, Conversion.tag]
      cases c.flag <;> rfl
    have hstartSpec : start.spec data.specCount = { data.spec data.specCount with
        index := 0xFF
        tag := c.flag.elim id Flag.set (data.spec data.specCount).tag } := by
      refine (FormatData.modify_spec_self _ _).trans ?_
      exact congrArg (Specifier.setTag _) (data.modify_spec_self _)
    have hspecModified := afterPrecision.modify_spec_self (Specifier.setTag c.modifier.set)
    rw [hcount, hspecPrecisions] at hspecModified
    rw [htag, show modified.specCount = data.specCount from hcount]
    refine hspecModified.trans ?_
    rw [hspecWidth, hstartSpec]
    rfl
  obtain ⟨done, htype, hallocType⟩ := parseType_render hmodified
    (show afterPrecision.valueCount + afterPrecision.immediateCount < maxArgs by omega)
    hspecPrecision (congrArg Specifier.tag hlast) (congrArg Specifier.index hlast) hwf.typed rest
  obtain ⟨i, hi, hspecType⟩ := hallocType.spec_self
  rw [hlast] at hspecType
  have hkeeps : ∀ index value, Provides afterPrecision
      (args ++ c.width.arguments ++ c.precisionAmount.arguments) index value →
        Provides done (args ++ c.width.arguments ++ c.precisionAmount.arguments ++ [c.argument])
          index value := hallocType.keeps
  have hargs : args ++ c.arguments =
      args ++ c.width.arguments ++ c.precisionAmount.arguments ++ [c.argument] := by
    simp only [Conversion.arguments, List.append_assoc]
  rw [hargs]
  refine ⟨done, ?_, hallocType.slots, hallocType.specCount_eq.trans hcount, ?_, ?_, ?_, ?_⟩
  · rw [parseSpec, hindex]
    simp only [FormatData.modifySpec_eq hspec, Option.bind_some, hflag, hwidth, hprecision,
      hmodifier]
    exact htype
  · have hdoneCount : done.valueCount + done.immediateCount =
        afterPrecision.valueCount + afterPrecision.immediateCount + 1 := hallocType.count_eq
    have hwidthCount : afterWidth.valueCount + afterWidth.immediateCount =
        data.valueCount + data.immediateCount + 1 := hallocWidth.count_eq
    have := hallocPrecision.count_eq
    omega
  · intro k hk
    rw [hallocType.spec_of_ne (hcount.symm ▸ hk), afterPrecision.modify_spec_of_ne _ (hcount.symm ▸ hk),
      hallocPrecision.spec_of_ne (hallocWidth.specCount_eq.symm ▸ hk), hallocWidth.spec_of_ne hk,
      ← data.modify_spec_of_ne (fun s => { s with index := 0xFF }) hk]
    exact FormatData.modify_spec_of_ne _ _ hk
  · rw [show data.specCount = modified.specCount from hcount.symm, hspecType]
    exact ⟨rfl, rfl, hkeeps _ _ (hallocPrecision.keeps _ _ hw), hkeeps _ _ hp, hi⟩
  · exact fun index value h => hkeeps _ _ (hallocPrecision.keeps _ _ (hallocWidth.keeps _ _ h))

/-- The specifiers of a format, from the one numbered so on. -/
def ReadsFrom (data : FormatData) (args : List Value) (specIndex : ℕ) (pieces : List Piece) :
    Prop :=
  ∀ k c rest, (conversions pieces)[k]? = some (c, rest) →
    Reads data args (data.spec (specIndex + k)) c rest

theorem parseFormatString_render {pieces : List Piece} (hwf : ∀ piece ∈ pieces, piece.WellFormed)
    {fuel : ℕ} (hfuel : (render pieces).length < fuel) (hslots : Slots data args)
    (hroom : data.valueCount + data.immediateCount + 3 * (conversions pieces).length ≤ maxArgs)
    (hspec : data.specCount + (conversions pieces).length ≤ maxSpecs)
    (hfresh : ∀ k, data.specCount ≤ k → (data.spec k).tag = {}) : ∃ data',
      parseFormatString fuel (render pieces) data = some data' ∧
      Slots data' (args ++ arguments pieces) ∧
      (∀ k, k < data.specCount → data'.spec k = data.spec k) ∧
      ReadsFrom data' (args ++ arguments pieces) data.specCount pieces ∧
      ∀ index value, Provides data args index value →
        Provides data' (args ++ arguments pieces) index value := by
  induction pieces generalizing fuel data args with
  | nil =>
    obtain ⟨fuel, rfl⟩ := Nat.exists_eq_add_of_lt hfuel
    rw [show args ++ arguments [] = args from List.append_nil args]
    refine ⟨data, ?_, hslots, fun _ _ => rfl, fun k c rest h => ?_, fun _ _ h => h⟩
    · rfl
    · simp [conversions] at h
  | cons piece pieces ih =>
    have hpieces : ∀ piece ∈ pieces, piece.WellFormed :=
      fun piece h => hwf piece (List.mem_cons_of_mem _ h)
    have hpiece := hwf piece List.mem_cons_self
    obtain ⟨fuel, rfl⟩ : ∃ n, fuel = n + 1 := ⟨fuel - 1, by omega⟩
    cases piece with
    | literal c =>
      have hstep : parseFormatString (fuel + 1) (render (.literal c :: pieces)) data =
          parseFormatString fuel (render pieces) data := by
        change parseFormatString (fuel + 1) (c :: render pieces) data = _
        rw [parseFormatString]
        · exact fun rest h => absurd h hpiece
        · exact hpiece
      rw [hstep]
      exact ih hpieces (by simpa [render, Piece.render] using hfuel) hslots hroom hspec hfresh
    | percent =>
      refine ih hpieces ?_ hslots hroom hspec hfresh
      have : (render (.percent :: pieces)).length = (render pieces).length + 2 := rfl
      omega
    | conversion c =>
      have hrender : render (.conversion c :: pieces) =
          '%' :: (c.renderFront ++ c.letter :: render pieces) := by
        simp [render, Piece.render]
      have hcount : (conversions (.conversion c :: pieces)).length =
          (conversions pieces).length + 1 := rfl
      have hargs : args ++ arguments (.conversion c :: pieces) =
          args ++ c.arguments ++ arguments pieces := by
        rw [List.append_assoc]
        rfl
      rw [hcount] at hroom hspec
      obtain ⟨parsed, hparse, hslotsParsed, hspecCount, hcounts, hkeepSpec, hreads, hkeeps⟩ :=
        parseSpec_render hslots (by omega) (by omega) (hfresh _ le_rfl) hpiece (render pieces)
      let next : FormatData := { parsed with specCount := parsed.specCount + 1 }
      have hnextCount : next.specCount = data.specCount + 1 := congrArg (· + 1) hspecCount
      have hstep : parseFormatString (fuel + 1) (render (.conversion c :: pieces)) data =
          parseFormatString fuel (render pieces) next := by
        obtain ⟨d, rest, hhead, hd⟩ := conversion_head hpiece (render pieces)
        rw [hrender, hhead, parseFormatString, ← hhead, hparse]
        · rfl
        · rintro rest' ⟨⟩
          exact hd rfl
      have hshort : (render pieces).length < fuel := by
        have hlen := congrArg List.length hrender
        rw [List.length_cons, List.length_append, List.length_cons] at hlen
        omega
      have hfreshNext : ∀ k, next.specCount ≤ k → (next.spec k).tag = {} := by
        intro k hk
        rw [hnextCount] at hk
        rw [show next.spec k = parsed.spec k from rfl, hkeepSpec k (by omega)]
        exact hfresh k (by omega)
      have hroomNext : next.valueCount + next.immediateCount + 3 * (conversions pieces).length ≤
          maxArgs := by
        change parsed.valueCount + parsed.immediateCount + _ ≤ _
        omega
      obtain ⟨data', hdata', hslots', hspecs', hreads', hkeeps'⟩ := ih hpieces hshort
        (show Slots next (args ++ c.arguments) from
          ⟨hslotsParsed.valueCount_eq, hslotsParsed.room, hslotsParsed.takes⟩)
        hroomNext (by omega) hfreshNext
      rw [hargs]
      refine ⟨data', hstep.trans hdata', hslots', fun k hk => ?_, fun k c' rest hk => ?_,
        fun index value h => hkeeps' index value (hkeeps index value h)⟩
      · rw [hspecs' k (by omega)]
        exact hkeepSpec k (by omega)
      · cases k with
        | zero =>
          obtain ⟨rfl, rfl⟩ := Prod.mk.inj (Option.some_inj.mp hk)
          rw [Nat.add_zero, hspecs' _ (by omega)]
          exact ⟨hreads.tag_eq, hreads.type_eq, hkeeps' _ _ hreads.width,
            hkeeps' _ _ hreads.precision, hkeeps' _ _ hreads.argument⟩
        | succ k =>
          have := hreads' k c' rest hk
          rwa [hnextCount, Nat.add_assoc, Nat.add_comm 1] at this

/-- What `readValues` leaves in the slots. -/
theorem readValues_eq (htypes : ∀ i arg, args[i]? = some arg → (data.valueType i).takes arg = some arg)
    (n index : ℕ) (hn : index + n = args.length) : ∃ data',
      readValues data n index (args.drop index) = some data' ∧ data'.spec = data.spec ∧
      (∀ i, i < index ∨ args.length ≤ i → data'.value i = data.value i) ∧
      ∀ i arg, index ≤ i → args[i]? = some arg → data'.value i = arg := by
  induction n generalizing data index with
  | zero =>
    refine ⟨data, rfl, rfl, fun _ _ => rfl, fun i arg hi hget => ?_⟩
    have := (List.getElem?_eq_some_iff.mp hget).1
    omega
  | succ n ih =>
    have hlt : index < args.length := by omega
    have hget : args[index]? = some args[index] := List.getElem?_eq_getElem hlt
    have htakes := htypes index _ hget
    have hkind : data.valueType index ≠ .immediate := by
      intro h
      rw [h] at htakes
      exact Option.some_ne_none _ htakes.symm
    let next : FormatData := { data with value := Function.update data.value index args[index] }
    have htypesNext : ∀ i arg, args[i]? = some arg → (next.valueType i).takes arg = some arg :=
      htypes
    obtain ⟨data', hread, hspec, hother, hvalue⟩ := ih htypesNext (index + 1) (by omega)
    refine ⟨data', ?_, hspec, fun i hi => ?_, fun i arg hi hgeti => ?_⟩
    · rw [List.drop_eq_getElem_cons hlt, readValues, if_neg hkind]
      simp only [htakes, Option.bind_some]
      exact hread
    · rw [hother i (by omega)]
      exact Function.update_of_ne (by omega) ..
    · rcases Nat.eq_or_lt_of_le hi with rfl | hlt'
      · rw [hother _ (.inl (Nat.lt_succ_self _))]
        rw [hget, Option.some_inj] at hgeti
        exact (Function.update_self ..).trans hgeti
      · exact hvalue i arg hlt' hgeti

/-- Each slot has its value. -/
structure Filled (data : FormatData) (spec : Specifier) (c : Conversion) (rest : List Char) :
    Prop where
  tag_eq : spec.tag = c.tag
  type_eq : spec.type = c.letter :: rest
  width_eq : data.value spec.widthIndex = .u64 c.width.value
  precision_eq : data.value spec.precisionIndex = .u64 c.precisionAmount.value
  argument_eq : data.value spec.index = c.argument

/-- The parser and the arguments give each conversion of the format its specifier. -/
theorem parse_render {pieces : List Piece} (hwf : WellFormed pieces) : ∃ parsed data,
    parseFormatString ((render pieces).length + 1) (render pieces) .initial = some parsed ∧
    readValues parsed parsed.valueCount 0 (arguments pieces) = some data ∧
    ∀ k c rest, (conversions pieces)[k]? = some (c, rest) →
      Filled data (data.spec k) c rest := by
  have hinitial : Slots .initial [] := ⟨rfl, by decide, by simp⟩
  have hroom : 3 * (conversions pieces).length ≤ maxArgs := by
    have := hwf.count
    rw [maxArgs]
    omega
  obtain ⟨parsed, hparse, hslots, -, hreads, -⟩ := parseFormatString_render hwf.piece
    (Nat.lt_succ_self _) hinitial (by simpa [FormatData.initial] using hroom)
    (by simpa [FormatData.initial] using hwf.count) fun _ _ => rfl
  rw [List.nil_append] at hslots hreads
  obtain ⟨data, hdata, hspec, hother, hvalue⟩ := readValues_eq hslots.takes
    parsed.valueCount 0 (by rw [Nat.zero_add, hslots.valueCount_eq])
  have hprovides : ∀ i value, Provides parsed (arguments pieces) i value → data.value i = value := by
    rintro i value (hget | ⟨hback, -, hval⟩)
    · exact hvalue i value (Nat.zero_le i) hget
    · have := hslots.room
      rw [hother i (.inr (by rw [← hslots.valueCount_eq]; omega)), hval]
  refine ⟨parsed, data, hparse, hdata, fun k c rest hk => ?_⟩
  have hspecifier := hreads k c rest hk
  rw [show FormatData.initial.specCount + k = k from Nat.zero_add k, ← hspec] at hspecifier
  exact ⟨hspecifier.tag_eq, hspecifier.type_eq, hprovides _ _ hspecifier.width,
    hprovides _ _ hspecifier.precision, hprovides _ _ hspecifier.argument⟩

end Specifiers

end OMR.Port.Format
