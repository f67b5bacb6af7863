import OMR.Port.FormatRuns

/-!
# What a format makes the calls access

The parser fills one specifier for each conversion up to the first one it does not know, and the
writer goes over the same format again with these specifiers. Which of them there are, and which
values they use, is seen from the format alone.
-/

namespace OMR.Port.Format

section Writer

/-- How a walk over the format ends: with an index, at the end or where the buffer is full, at an
access that is not allowed, or not at all. -/
inductive WalkEnd where
  | ends (index : ℕ)
  | violates
  | unfinished
deriving DecidableEq

/-- A specifier that the writer can use. Its type is empty where it has not been set, and where
it points to the end of the format, behind which the writer would go on. -/
structure FormatData.Usable (data : FormatData) (specIndex : ℕ) : Prop where
  spec_lt : specIndex < maxSpecs
  type_set : (data.spec specIndex).type ≠ []
  index_lt : (data.spec specIndex).index < maxArgs
  width_lt : (data.spec specIndex).widthIndex < maxArgs
  precision_lt : (data.spec specIndex).precisionIndex < maxArgs

instance (data : FormatData) (specIndex : ℕ) : Decidable (data.Usable specIndex) :=
  decidable_of_iff (specIndex < maxSpecs ∧ (data.spec specIndex).type ≠ [] ∧
      (data.spec specIndex).index < maxArgs ∧ (data.spec specIndex).widthIndex < maxArgs ∧
      (data.spec specIndex).precisionIndex < maxArgs)
    ⟨fun ⟨h1, h2, h3, h4, h5⟩ => ⟨h1, h2, h3, h4, h5⟩, fun ⟨h1, h2, h3, h4, h5⟩ =>
      ⟨h1, h2, h3, h4, h5⟩⟩

/-- The loop of `writeFormattedString` with the accesses that it makes, where `written` is what
`writeSpec` returns for each specifier. -/
def walkFormat (data : FormatData) (written : ℕ → ℕ) (length : ℕ) :
    ℕ → List Char → ℕ → ℕ → WalkEnd
  | 0, _, _, _ => .unfinished
  | _ + 1, [], _, index => .ends index
  | fuel + 1, c :: format, specIndex, index =>
    if index < length - 1 then
      if c = '%' then
        if format.head? = some '%' then
          walkFormat data written length fuel format.tail specIndex (index + 1)
        else if data.Usable specIndex then
          walkFormat data written length fuel (data.spec specIndex).type.tail (specIndex + 1)
            (index + written specIndex)
        else .violates
      else walkFormat data written length fuel format specIndex (index + 1)
    else .ends index

/-- Every access of a call is allowed: the parser stays inside its arrays, the values that are
read have a place, and the writer ends. -/
def SafeCall (format : List Char) (written : ℕ → ℕ) (length : ℕ) : Prop :=
  ∃ data, parseFormatString (format.length + 1) format .initial = some data ∧
    data.valueCount ≤ maxArgs ∧
    ∃ index, walkFormat data written length (format.length + 1) format 0 0 = .ends index

/-- Every call with the format is safe, whatever is written into a buffer of whatever size. -/
def SafeFormat (format : List Char) : Prop := ∀ written length, SafeCall format written length

end Writer

section Scan

def skipFlag : List Char → List Char
  | '0' :: rest => rest
  | ' ' :: rest => rest
  | '-' :: rest => rest
  | '+' :: rest => rest
  | '#' :: rest => rest
  | format => format

/-- What is behind a width or a precision, and the index that follows its `*`. -/
def scanAmount (format : List Char) : List Char × List ℕ :=
  match format with
  | '*' :: format => ((parseIndex format).1, [(parseIndex format).2])
  | format => ((parseDigits false 0 format).1, [])

def scanPrecision (format : List Char) : List Char × List ℕ :=
  match format with
  | '.' :: format => scanAmount format
  | format => (format, [])

def skipModifier : List Char → List Char
  | 'z' :: rest => rest
  | 'l' :: 'l' :: rest => rest
  | 'l' :: rest => rest
  | format => format

/-- The index of the argument that a conversion gives, behind its `%`. -/
def argumentIndex (format : List Char) : ℕ := (parseIndex format).2

/-- The indices behind the `*` of its width and precision. -/
def starIndices (format : List Char) : List ℕ :=
  let width := scanAmount (skipFlag (parseIndex format).1)
  width.2 ++ (scanPrecision width.1).2

/-- The conversion from its letter on. -/
def typeOf (format : List Char) : List Char :=
  skipModifier (scanPrecision (scanAmount (skipFlag (parseIndex format).1)).1).1

/-- The letter of a conversion. -/
def IsLetter (letter : Char) : Prop :=
  letter ∈ ['c', 'i', 'd', 'u', 'x', 'X', 'p', 's', 'f', 'e', 'E', 'F', 'g', 'G']

instance (letter : Char) : Decidable (IsLetter letter) := inferInstanceAs (Decidable (_ ∈ _))

/-- There is no index, or it is one of the values. -/
def Indexes (index : ℕ) : Prop := index = 0xFF ∨ index < maxArgs

instance (index : ℕ) : Decidable (Indexes index) := inferInstanceAs (Decidable (_ ∨ _))

/-- Nothing but literal characters. -/
inductive Literal : List Char → Prop where
  | nil : Literal []
  | percent {format : List Char} (h : Literal format) : Literal ('%' :: '%' :: format)
  | char {c : Char} {format : List Char} (hc : c ≠ '%') (h : Literal format) :
      Literal (c :: format)

/-- A format behind so many conversions: 16 of them at most, each with a letter, and with no
index beyond the values. A conversion with an unknown letter is the last one. -/
inductive Acceptable : ℕ → List Char → Prop where
  | nil {k : ℕ} : Acceptable k []
  | percent {k : ℕ} {format : List Char} (h : Acceptable k format) :
      Acceptable k ('%' :: '%' :: format)
  | char {k : ℕ} {c : Char} {format : List Char} (hc : c ≠ '%') (h : Acceptable k format) :
      Acceptable k (c :: format)
  | conversion {k : ℕ} {format rest : List Char} {letter : Char}
      (hpercent : format.head? ≠ some '%') (hk : k < maxSpecs)
      (hstars : ∀ i ∈ starIndices format, Indexes i) (hindex : Indexes (argumentIndex format))
      (htype : typeOf format = letter :: rest) (hletter : IsLetter letter)
      (hrest : Acceptable (k + 1) rest) : Acceptable k ('%' :: format)
  | unknown {k : ℕ} {format rest : List Char} {letter : Char}
      (hpercent : format.head? ≠ some '%') (hk : k < maxSpecs)
      (hstars : ∀ i ∈ starIndices format, Indexes i) (hindex : Indexes (argumentIndex format))
      (htype : typeOf format = letter :: rest) (hletter : ¬ IsLetter letter)
      (hrest : Literal rest) : Acceptable k ('%' :: format)

end Scan

section Lengths

theorem length_parseIndexFrom (start : List Char) (n : ℕ) {format : List Char}
    (h : format.length ≤ start.length) :
    (parseIndexFrom start n format).1.length ≤ start.length := by
  induction format generalizing n with
  | nil => exact le_rfl
  | cons c format ih =>
    rw [List.length_cons] at h
    rw [parseIndexFrom]
    split_ifs
    · exact ih _ (by omega)
    · exact Nat.le_of_succ_le h
    · exact le_rfl

theorem length_parseIndex (format : List Char) : (parseIndex format).1.length ≤ format.length :=
  length_parseIndexFrom format 0 le_rfl

theorem length_parseDigits (anyDigits : Bool) (n : ℕ) (format : List Char) :
    (parseDigits anyDigits n format).1.length ≤ format.length := by
  induction format generalizing anyDigits n with
  | nil => exact le_rfl
  | cons c format ih =>
    rw [parseDigits]
    split
    · exact (ih _ _).trans (Nat.le_succ _)
    · exact le_rfl

theorem length_skipFlag (format : List Char) : (skipFlag format).length ≤ format.length := by
  unfold skipFlag
  split <;> simp

theorem length_scanAmount (format : List Char) :
    (scanAmount format).1.length ≤ format.length := by
  unfold scanAmount
  split
  · exact (length_parseIndex _).trans (Nat.le_succ _)
  · exact length_parseDigits _ _ _

theorem length_scanPrecision (format : List Char) :
    (scanPrecision format).1.length ≤ format.length := by
  unfold scanPrecision
  split
  · exact (length_scanAmount _).trans (Nat.le_succ _)
  · exact le_rfl

theorem length_skipModifier (format : List Char) :
    (skipModifier format).length ≤ format.length := by
  unfold skipModifier
  split <;> simp
  omega

theorem length_typeOf (format : List Char) : (typeOf format).length ≤ format.length :=
  (length_skipModifier _).trans ((length_scanPrecision _).trans ((length_scanAmount _).trans
    ((length_skipFlag _).trans (length_parseIndex _))))

end Lengths

section Steps

variable {data : FormatData} {format : List Char}

/-- A part of the parser has worked on the specifier at hand and taken so many values. -/
structure Advances (data data' : FormatData) (taken : ℕ) : Prop where
  specCount_eq : data'.specCount = data.specCount
  spec_eq : ∀ j ≠ data.specCount, data'.spec j = data.spec j
  count_eq : data'.valueCount + data'.immediateCount =
    data.valueCount + data.immediateCount + taken

theorem Advances.trans {data' data'' : FormatData} {taken taken' : ℕ}
    (h : Advances data data' taken) (h' : Advances data' data'' taken') :
    Advances data data'' (taken + taken') where
  specCount_eq := h'.specCount_eq.trans h.specCount_eq
  spec_eq j hj := (h'.spec_eq j (h.specCount_eq ▸ hj)).trans (h.spec_eq j hj)
  count_eq := by
    have := h.count_eq
    have := h'.count_eq
    omega

/-- The specifier at hand is changed. -/
theorem modifySpec_advances (hk : data.specCount < maxSpecs) (f : Specifier → Specifier) :
    ∃ data', data.modifySpec f = some data' ∧ Advances data data' 0 ∧
      data'.spec data.specCount = f (data.spec data.specCount) := by
  refine ⟨_, if_pos hk, ⟨rfl, fun j hj => Function.update_of_ne hj .., rfl⟩, ?_⟩
  exact Function.update_self ..

/-- A bit of the tag is set. -/
theorem setTag_advances (hk : data.specCount < maxSpecs) (f : Tag → Tag) (rest : List Char) :
    ∃ data' tag, (data.modifySpec fun s => { s with tag := f s.tag }).map
        (fun data => (rest, data)) = some (rest, data') ∧ Advances data data' 0 ∧
      data'.spec data.specCount = { data.spec data.specCount with tag := tag } := by
  obtain ⟨data', hmodify, hadvances, hspec⟩ :=
    modifySpec_advances hk fun s => { s with tag := f s.tag }
  exact ⟨data', _, by rw [hmodify, Option.map_some], hadvances, hspec⟩

theorem Advances.refl (data : FormatData) : Advances data data 0 :=
  ⟨rfl, fun _ _ => rfl, rfl⟩

theorem parseTagChar_advances (hk : data.specCount < maxSpecs) (format : List Char) :
    ∃ data' tag, parseTagChar format data = some (skipFlag format, data') ∧
      Advances data data' 0 ∧
      data'.spec data.specCount = { data.spec data.specCount with tag := tag } := by
  unfold parseTagChar
  split
  · exact setTag_advances hk (fun t => { t with zero := true }) _
  · exact setTag_advances hk (fun t => { t with space := true }) _
  · exact setTag_advances hk (fun t => { t with dash := true }) _
  · exact setTag_advances hk (fun t => { t with plus := true }) _
  · exact setTag_advances hk (fun t => { t with hash := true }) _
  · next h1 h2 h3 h4 h5 =>
    have hskip : skipFlag format = format := by
      unfold skipFlag
      split
      · exact absurd rfl (h1 _)
      · exact absurd rfl (h2 _)
      · exact absurd rfl (h3 _)
      · exact absurd rfl (h4 _)
      · exact absurd rfl (h5 _)
      · rfl
    rw [hskip]
    exact ⟨data, _, rfl, .refl data, rfl⟩

theorem parseModifier_advances (hk : data.specCount < maxSpecs) (format : List Char) :
    ∃ data' tag, parseModifier format data = some (skipModifier format, data') ∧
      Advances data data' 0 ∧
      data'.spec data.specCount = { data.spec data.specCount with tag := tag } := by
  unfold parseModifier
  split
  · exact setTag_advances hk (fun t => { t with ll := true }) _
  · exact setTag_advances hk (fun t => { t with ll := true }) _
  · next h =>
    rw [skipModifier]
    · exact setTag_advances hk (fun t => { t with l := true }) _
    · exact h
  · next h1 h2 h3 =>
    have hskip : skipModifier format = format := by
      unfold skipModifier
      split
      · exact absurd rfl (h1 _)
      · exact absurd rfl (h2 _)
      · exact absurd rfl (h3 _)
      · rfl
    rw [hskip]
    exact ⟨data, _, rfl, .refl data, rfl⟩

/-- An index is set, and the value it stands for. -/
theorem setIndex_advances (setIndex : ℕ → Specifier → Specifier) (data : FormatData)
    (hk : data.specCount < maxSpecs) (index : ℕ) (type : ValueType) (value : ℕ)
    (hindex : index < maxArgs) :
    ∃ data', ((data.modifySpec (setIndex index)).bind fun data =>
        data.setValue index type value) = some data' ∧ Advances data data' 0 ∧
      data'.spec data.specCount = setIndex index (data.spec data.specCount) := by
  simp only [FormatData.modifySpec, if_pos hk, Option.bind_some, FormatData.setValue,
    if_pos hindex]
  exact ⟨_, rfl, ⟨rfl, fun j hj => Function.update_of_ne hj .., rfl⟩, Function.update_self ..⟩

variable (setIndex : ℕ → Specifier → Specifier)

theorem parseImmediate_advances (hk : data.specCount < maxSpecs) (value : Option ℕ) :
    ∃ data' index, parseImmediate setIndex value data = some data' ∧ index < maxArgs ∧
      Advances data data' 1 ∧
      data'.spec data.specCount = setIndex index (data.spec data.specCount) := by
  have hindex : maxArgs - (data.immediateCount + 1) < maxArgs := by
    rw [maxArgs, maxSpecs]
    omega
  obtain ⟨data', hset, hadvances, hspec⟩ := setIndex_advances setIndex
    { data with immediateCount := data.immediateCount + 1 } hk _ .immediate
    (value.getD noValue) hindex
  exact ⟨data', _, hset, hindex, ⟨hadvances.specCount_eq, hadvances.spec_eq, hadvances.count_eq⟩,
    hspec⟩

theorem parseStar_advances (hk : data.specCount < maxSpecs) (hroom : data.valueCount < maxArgs)
    (format : List Char) :
    (Indexes (parseIndex format).2 → ∃ data' index,
      parseStar setIndex format data = some ((parseIndex format).1, data') ∧ index < maxArgs ∧
      Advances data data' 1 ∧
      data'.spec data.specCount = setIndex index (data.spec data.specCount)) ∧
    (¬ Indexes (parseIndex format).2 → parseStar setIndex format data = none) := by
  rw [parseStar]
  generalize parseIndex format = parsed
  obtain ⟨rest, index⟩ := parsed
  simp only [FormatData.modifySpec, if_pos hk, Option.bind_some, FormatData.setValue]
  by_cases hnone : index = 0xFF
  · simp only [hnone, if_true, if_pos hroom, Option.map_some]
    refine ⟨fun _ => ⟨_, _, rfl, hroom, ⟨rfl, fun j hj => Function.update_of_ne hj .., ?_⟩,
      Function.update_self ..⟩, fun hnot => absurd (.inl rfl) hnot⟩
    simp only
    omega
  · by_cases hlt : index < maxArgs
    · simp only [hnone, if_false, if_pos hlt, Option.map_some]
      refine ⟨fun _ => ⟨_, _, rfl, hlt, ⟨rfl, fun j hj => Function.update_of_ne hj .., ?_⟩,
        Function.update_self ..⟩, fun hnot => absurd (.inr hlt) hnot⟩
      simp only
      omega
    · simp only [hnone, if_false, if_neg hlt, Option.map_none]
      refine ⟨fun hrange => ?_, fun _ => trivial⟩
      obtain h | h := hrange
      · exact absurd h hnone
      · exact absurd h hlt

theorem parseAmount_advances (hk : data.specCount < maxSpecs) (hroom : data.valueCount < maxArgs)
    (format : List Char) :
    ((∀ i ∈ (scanAmount format).2, Indexes i) → ∃ data' index,
      parseAmount setIndex format data = some ((scanAmount format).1, data') ∧ index < maxArgs ∧
      Advances data data' 1 ∧
      data'.spec data.specCount = setIndex index (data.spec data.specCount)) ∧
    ((¬ ∀ i ∈ (scanAmount format).2, Indexes i) →
      parseAmount setIndex format data = none) := by
  unfold parseAmount
  split
  · next format =>
    obtain ⟨hok, hfail⟩ := parseStar_advances setIndex hk hroom format
    simp only [scanAmount, List.mem_singleton, forall_eq]
    exact ⟨hok, hfail⟩
  · next hstar =>
    have hscan : scanAmount format = ((parseDigits false 0 format).1, []) := by
      unfold scanAmount
      split
      · exact absurd rfl (hstar _)
      · rfl
    rw [hscan]
    refine ⟨fun _ => ?_, fun hnot => absurd (fun i hi => by cases hi) hnot⟩
    obtain ⟨data', index, himmediate, hindex, hadvances, hspec⟩ :=
      parseImmediate_advances setIndex hk (parseDigits false 0 format).2
    refine ⟨data', index, ?_, hindex, hadvances, hspec⟩
    simp only [himmediate, Option.map_some]

theorem parsePrecision_advances (hk : data.specCount < maxSpecs)
    (hroom : data.valueCount < maxArgs) (format : List Char) :
    ((∀ i ∈ (scanPrecision format).2, Indexes i) → ∃ data' index,
      parsePrecision format data = some ((scanPrecision format).1, data') ∧ index < maxArgs ∧
      Advances data data' 1 ∧ data'.spec data.specCount =
        { data.spec data.specCount with precisionIndex := index }) ∧
    ((¬ ∀ i ∈ (scanPrecision format).2, Indexes i) → parsePrecision format data = none) := by
  unfold parsePrecision
  split
  · next format =>
    exact parseAmount_advances (fun index s => { s with precisionIndex := index })
      hk hroom format
  · next hpoint =>
    have hscan : scanPrecision format = (format, []) := by
      unfold scanPrecision
      split
      · exact absurd rfl (hpoint _)
      · rfl
    rw [hscan]
    refine ⟨fun _ => ?_, fun hnot => absurd (fun i hi => by cases hi) hnot⟩
    obtain ⟨data', index, himmediate, hindex, hadvances, hspec⟩ :=
      parseImmediate_advances (fun index s => { s with precisionIndex := index })
        hk none
    refine ⟨data', index, ?_, hindex, hadvances, hspec⟩
    simp only [himmediate, Option.map_some]

theorem letterType_isSome (tag : Tag) (letter : Char) :
    (letterType tag letter).isSome = true ↔ IsLetter letter := by
  simp only [letterType, IsLetter, List.mem_cons, List.not_mem_nil, or_false]
  split_ifs
  all_goals
    simp only [Option.isSome_some, Option.isSome_none, true_iff, Bool.false_eq_true, false_iff]
    tauto

/-- What is left of the format behind a conversion, unless its letter is unknown. -/
def behind (type : List Char) : Option (List Char) :=
  match type with
  | [] => none
  | letter :: rest => if IsLetter letter then some rest else none

/-- The index of the argument has to be one of the values where the letter is known. -/
theorem parseType_advances (hk : data.specCount < maxSpecs) (hroom : data.valueCount < maxArgs)
    (type : List Char) :
    ((behind type ≠ none → Indexes (data.spec data.specCount).index) → ∃ data' index,
      parseType type data = some (behind type, data') ∧
      (Indexes (data.spec data.specCount).index → index < maxArgs) ∧
      (¬ Indexes (data.spec data.specCount).index → ¬ index < maxArgs) ∧ Advances data data' 1 ∧
      data'.spec data.specCount = { data.spec data.specCount with index := index, type := type }) ∧
    ((¬ (behind type ≠ none → Indexes (data.spec data.specCount).index)) →
      parseType type data = none) := by
  have hin : Indexes (data.spec data.specCount).index ↔
      (if (data.spec data.specCount).index = 0xFF then data.valueCount
        else (data.spec data.specCount).index) < maxArgs := by
    rw [Indexes]
    split
    · next h => exact ⟨fun _ => hroom, fun _ => .inl h⟩
    · next h => exact ⟨fun hor => hor.resolve_left h, .inr⟩
  simp only [parseType, FormatData.modifySpec, if_pos hk, Option.bind_some, hin]
  generalize (if (data.spec data.specCount).index = 0xFF then data.valueCount
    else (data.spec data.specCount).index) = index
  have hadvances : ∀ valueType, Advances data
      { data with
        valueType := valueType
        spec := Function.update data.spec data.specCount
          { data.spec data.specCount with index := index, type := type }
        valueCount := data.valueCount + 1 } 1 := by
    intro valueType
    refine ⟨rfl, fun j hj => Function.update_of_ne hj .., ?_⟩
    simp only
    omega
  cases type with
  | nil =>
    refine ⟨fun _ => ⟨_, index, rfl, id, id, hadvances _, Function.update_self ..⟩, ?_⟩
    simp [behind]
  | cons letter rest =>
    simp only [behind]
    have hsome := letterType_isSome (data.spec data.specCount).tag letter
    cases hletter : letterType (data.spec data.specCount).tag letter with
    | none =>
      rw [hletter] at hsome
      have hnot : ¬ IsLetter letter := fun h => by cases hsome.2 h
      simp only [if_neg hnot]
      refine ⟨fun _ => ⟨_, index, rfl, id, id, hadvances _, Function.update_self ..⟩, ?_⟩
      simp
    | some type =>
      rw [hletter] at hsome
      have hyes : IsLetter letter := hsome.1 rfl
      simp only [if_pos hyes, FormatData.setType]
      by_cases hlt : index < maxArgs
      · simp only [if_pos hlt, Option.map_some]
        refine ⟨fun _ => ⟨_, index, rfl, id, id, hadvances _, Function.update_self ..⟩, ?_⟩
        intro hnot
        exact absurd (fun _ => hlt) hnot
      · simp only [if_neg hlt, Option.map_none]
        refine ⟨fun himp => absurd (himp (by simp)) hlt, fun _ => trivial⟩

/-- A conversion has its specifier. -/
structure Parsed (data data' : FormatData) (format : List Char) : Prop where
  advances : Advances data data' 3
  type_eq : (data'.spec data.specCount).type = typeOf format
  index_iff : (data'.spec data.specCount).index < maxArgs ↔ Indexes (argumentIndex format)
  width_lt : (data'.spec data.specCount).widthIndex < maxArgs
  precision_lt : (data'.spec data.specCount).precisionIndex < maxArgs

/-- The indices that the parser follows for a conversion. -/
def Follows (format : List Char) : Prop :=
  (∀ i ∈ starIndices format, Indexes i) ∧
    (behind (typeOf format) ≠ none → Indexes (argumentIndex format))

theorem parseSpec_parsed (hk : data.specCount < maxSpecs)
    (hroom : data.valueCount + data.immediateCount + 2 < maxArgs) (format : List Char) :
    (Follows format → ∃ data', parseSpec format data = some (behind (typeOf format), data') ∧
      Parsed data data' format) ∧
    (¬ Follows format → parseSpec format data = none) := by
  obtain ⟨d₁, hmodify, h₁, hspec₁⟩ :=
    modifySpec_advances hk fun s => { s with index := argumentIndex format }
  have hk₁ : d₁.specCount < maxSpecs := h₁.specCount_eq ▸ hk
  obtain ⟨d₂, tag, htag, h₂, hspec₂⟩ := parseTagChar_advances hk₁ (parseIndex format).1
  have h₁₂ := h₁.trans h₂
  have hk₂ : d₂.specCount < maxSpecs := h₁₂.specCount_eq ▸ hk
  have hcount₂ := h₁₂.count_eq
  obtain ⟨hwidth, hwidthFails⟩ := parseAmount_advances
    (fun index s => { s with widthIndex := index }) hk₂ (by omega)
    (skipFlag (parseIndex format).1)
  have hstart : parseSpec format data =
      (parseWidth (skipFlag (parseIndex format).1) d₂).bind fun r =>
        (parsePrecision r.1 r.2).bind fun r =>
          (parseModifier r.1 r.2).bind fun r => parseType r.1 r.2 := by
    rw [parseSpec]
    simp only [← argumentIndex.eq_1, hmodify, Option.bind_some, htag]
  rw [hstart, Follows, starIndices]
  simp only [List.mem_append, or_imp, forall_and]
  by_cases hin₃ : ∀ i ∈ (scanAmount (skipFlag (parseIndex format).1)).2, Indexes i
  · obtain ⟨d₃, width, hwidth, hwidthLt, h₃, hspec₃⟩ := hwidth hin₃
    have h₁₃ := h₁₂.trans h₃
    have hk₃ : d₃.specCount < maxSpecs := h₁₃.specCount_eq ▸ hk
    have hcount₃ := h₁₃.count_eq
    obtain ⟨hprecision, hprecisionFails⟩ := parsePrecision_advances hk₃ (by omega)
      (scanAmount (skipFlag (parseIndex format).1)).1
    rw [parseWidth, hwidth, Option.bind_some, and_iff_right hin₃]
    simp only
    by_cases hin₄ : ∀ i ∈ (scanPrecision (scanAmount (skipFlag (parseIndex format).1)).1).2,
        Indexes i
    · obtain ⟨d₄, precision, hprecision, hprecisionLt, h₄, hspec₄⟩ := hprecision hin₄
      have h₁₄ := h₁₃.trans h₄
      have hk₄ : d₄.specCount < maxSpecs := h₁₄.specCount_eq ▸ hk
      obtain ⟨d₅, tag', hmodifier, h₅, hspec₅⟩ := parseModifier_advances hk₄
        (scanPrecision (scanAmount (skipFlag (parseIndex format).1)).1).1
      have h₁₅ := h₁₄.trans h₅
      have hk₅ : d₅.specCount < maxSpecs := h₁₅.specCount_eq ▸ hk
      have hcount₅ := h₁₅.count_eq
      obtain ⟨htype, htypeFails⟩ := parseType_advances hk₅ (by omega) (typeOf format)
      rw [h₁.specCount_eq, hspec₁] at hspec₂
      rw [h₁₂.specCount_eq, hspec₂] at hspec₃
      rw [h₁₃.specCount_eq, hspec₃] at hspec₄
      rw [h₁₄.specCount_eq, hspec₄] at hspec₅
      simp only [h₁₅.specCount_eq, hspec₅] at htype htypeFails
      rw [hprecision, Option.bind_some, and_iff_right hin₄]
      simp only [hmodifier, Option.bind_some]
      refine ⟨fun hfollows => ?_, htypeFails⟩
      obtain ⟨data', index, hresult, hindex, hindexFails, h₆, hspec₆⟩ := htype hfollows
      have h₁₆ := h₁₅.trans h₆
      refine ⟨data', hresult, ⟨h₁₆, ?_, ?_, ?_, ?_⟩⟩
      · rw [hspec₆]
      · rw [hspec₆]
        exact ⟨fun hlt => by_contra fun hnot => hindexFails hnot hlt, hindex⟩
      · rw [hspec₆]
        exact hwidthLt
      · rw [hspec₆]
        exact hprecisionLt
    · rw [hprecisionFails hin₄, Option.bind_none]
      exact ⟨fun h => absurd h.1 hin₄, fun _ => rfl⟩
  · rw [parseWidth, hwidthFails hin₃, Option.bind_none]
    exact ⟨fun h => absurd h.1.1 hin₃, fun _ => rfl⟩

theorem parseSpec_full (hk : ¬ data.specCount < maxSpecs) (format : List Char) :
    parseSpec format data = none := by
  simp only [parseSpec, FormatData.modifySpec, if_neg hk, Option.bind_none]

end Steps

section Walk

variable {data : FormatData} {written : ℕ → ℕ} {length fuel specIndex index : ℕ}
  {format : List Char}

theorem walkFormat_congr {written' : ℕ → ℕ} (h : ∀ k, specIndex ≤ k → written k = written' k) :
    walkFormat data written length fuel format specIndex index =
      walkFormat data written' length fuel format specIndex index := by
  induction fuel generalizing format specIndex index with
  | zero => rfl
  | succ fuel ih =>
    cases format with
    | nil => rfl
    | cons c format =>
      rw [walkFormat, walkFormat, ih h, ih h, h specIndex le_rfl,
        ih fun k hk => h k (Nat.le_of_succ_le hk)]

/-- The writer takes the steps of the walk, unless one of them is not allowed. -/
theorem writeFormat_walks {buf : Buffer} {m m' : Memory} {index' : ℕ}
    (h : writeFormat data buf length fuel format specIndex index m = some (index', m')) :
    ∃ written, walkFormat data written length fuel format specIndex index = .ends index' ∨
      walkFormat data written length fuel format specIndex index = .violates := by
  induction fuel generalizing format specIndex index m with
  | zero => cases h
  | succ fuel ih =>
    cases format with
    | nil =>
      obtain ⟨rfl, -⟩ := Prod.mk.inj (Option.some.inj h)
      exact ⟨fun _ => 0, .inl rfl⟩
    | cons c format =>
      rw [writeFormat] at h
      simp only [walkFormat]
      split at h
      · next hroom =>
        simp only [if_pos hroom]
        split at h
        · next hc =>
          simp only [if_pos hc]
          split at h
          · next hpercent =>
            simp only [if_pos hpercent]
            exact ih h
          · next hpercent =>
            simp only [if_neg hpercent]
            obtain ⟨⟨used, m₁⟩, -, hrest⟩ := Option.bind_eq_some_iff.1 h
            obtain ⟨written, hwritten⟩ := ih hrest
            have hlater : ∀ k, specIndex + 1 ≤ k →
                Function.update written specIndex used k = written k :=
              fun k hk => Function.update_of_ne (by omega) ..
            refine ⟨Function.update written specIndex used, ?_⟩
            rw [Function.update_self, walkFormat_congr hlater]
            split
            · exact hwritten
            · exact .inr rfl
        · next hc =>
          simp only [if_neg hc]
          exact ih h
      · next hroom =>
        simp only [if_neg hroom]
        obtain ⟨rfl, -⟩ := Prod.mk.inj (Option.some.inj h)
        exact ⟨fun _ => 0, .inl rfl⟩

/-- The characters up to the next conversion. -/
theorem walkFormat_literal (h : Literal format) (written : ℕ → ℕ) (length specIndex index : ℕ)
    (hfuel : format.length < fuel) :
    ∃ index', walkFormat data written length fuel format specIndex index = .ends index' := by
  obtain ⟨fuel, rfl⟩ : ∃ n, fuel = n + 1 := ⟨fuel - 1, by omega⟩
  induction h generalizing fuel index with
  | nil => exact ⟨index, rfl⟩
  | percent h ih =>
    simp only [List.length_cons] at hfuel
    obtain ⟨fuel, rfl⟩ : ∃ n, fuel = n + 1 := ⟨fuel - 1, by omega⟩
    rw [walkFormat]
    split
    · rw [if_pos rfl, if_pos List.head?_cons]
      exact ih (index + 1) fuel (by omega)
    · exact ⟨index, rfl⟩
  | @char c format hc h ih =>
    simp only [List.length_cons] at hfuel
    obtain ⟨fuel, rfl⟩ : ∃ n, fuel = n + 1 := ⟨fuel - 1, by omega⟩
    rw [walkFormat, if_neg hc]
    split
    · exact ih (index + 1) fuel (by omega)
    · exact ⟨index, rfl⟩

/-- A conversion without a specifier is reached. -/
theorem walkFormat_violates (hspec : ¬ data.Usable specIndex) (h : ¬ Literal format)
    (hfuel : format.length < fuel) (hlength : index + format.length < length - 1) :
    walkFormat data (fun _ => 0) length fuel format specIndex index = .violates := by
  induction fuel generalizing format index with
  | zero => exact absurd hfuel (Nat.not_lt_zero _)
  | succ fuel ih =>
    cases format with
    | nil => exact absurd .nil h
    | cons c format =>
      simp only [List.length_cons] at hfuel hlength
      rw [walkFormat, if_pos (by omega)]
      by_cases hc : c = '%'
      · rw [if_pos hc]
        by_cases hhead : format.head? = some '%'
        · obtain ⟨rest, rfl⟩ : ∃ rest, format = '%' :: rest := by
            cases format with
            | nil => cases hhead
            | cons d rest => exact ⟨rest, by rw [Option.some.inj hhead]⟩
          simp only [List.length_cons] at hfuel hlength
          rw [if_pos hhead, List.tail_cons]
          exact ih (fun hrest => h (hc ▸ .percent hrest)) (by omega) (by omega)
        · rw [if_neg hhead, if_neg hspec]
      · rw [if_neg hc]
        exact ih (fun hrest => h (.char hc hrest)) (by omega) (by omega)

/-- The parser has filled the specifiers of so many conversions. -/
structure ParsedSpecs (k : ℕ) (data : FormatData) : Prop where
  specCount_eq : data.specCount = k
  count_eq : data.valueCount + data.immediateCount = 3 * k
  spec_le : k ≤ maxSpecs
  type_unset : ∀ j, k ≤ j → (data.spec j).type = []

/-- What the rest of the format leaves of what has been parsed. -/
structure Keeps (k : ℕ) (data data' : FormatData) : Prop where
  spec_eq : ∀ j < k, data'.spec j = data.spec j
  valueCount_le : data'.valueCount ≤ maxArgs

theorem Keeps.usable {k : ℕ} {data' : FormatData} (h : Keeps (k + 1) data data') :
    data'.Usable k ↔ data.Usable k := by
  have hspec := h.spec_eq k (Nat.lt_succ_self k)
  constructor
  · rintro ⟨hk, htype, hindex, hwidth, hprecision⟩
    rw [hspec] at htype hindex hwidth hprecision
    exact ⟨hk, htype, hindex, hwidth, hprecision⟩
  · rintro ⟨hk, htype, hindex, hwidth, hprecision⟩
    exact ⟨hk, hspec ▸ htype, hspec ▸ hindex, hspec ▸ hwidth, hspec ▸ hprecision⟩

/-- What is shown of the rest of a format behind so many conversions: it can be parsed and is
walked over if it is acceptable, and otherwise the parser or the writer fails. -/
def Agrees (k fuel : ℕ) (format : List Char) (data : FormatData) : Prop :=
  (Acceptable k format → ∃ data', parseFormatString fuel format data = some data' ∧
    Keeps k data data' ∧ ∀ written length fuel' index, format.length < fuel' →
      ∃ index', walkFormat data' written length fuel' format k index = .ends index') ∧
  (¬ Acceptable k format → ∀ data', parseFormatString fuel format data = some data' →
    Keeps k data data' ∧ ∀ length fuel' index, format.length < fuel' →
      index + format.length < length - 1 →
        walkFormat data' (fun _ => 0) length fuel' format k index = .violates)

theorem ParsedSpecs.parsed {k : ℕ} {data' : FormatData} (h : ParsedSpecs k data)
    (hk : k < maxSpecs) (hparsed : Parsed data data' format) :
    ParsedSpecs (k + 1) { data' with specCount := data'.specCount + 1 } ∧
      Keeps k data data' := by
  have hspecCount := h.specCount_eq
  have hcount := hparsed.advances.count_eq
  have hsum := h.count_eq
  refine ⟨⟨?_, ?_, hk, fun j hj => ?_⟩, fun j hj => ?_, ?_⟩
  · simp only
    rw [hparsed.advances.specCount_eq, hspecCount]
  · simp only
    omega
  · simp only
    rw [hparsed.advances.spec_eq j (by omega)]
    exact h.type_unset j (by omega)
  · exact hparsed.advances.spec_eq j (by omega)
  · have hmax : maxArgs = maxSpecs * 3 := rfl
    omega

/-- The specifier of a conversion that has been parsed. -/
theorem Parsed.usable_iff {data' : FormatData} (hparsed : Parsed data data' format)
    (hk : data.specCount < maxSpecs) :
    data'.Usable data.specCount ↔ typeOf format ≠ [] ∧ Indexes (argumentIndex format) := by
  constructor
  · rintro ⟨-, htype, hindex, -, -⟩
    exact ⟨hparsed.type_eq ▸ htype, hparsed.index_iff.1 hindex⟩
  · rintro ⟨htype, hindex⟩
    exact ⟨hk, hparsed.type_eq ▸ htype, hparsed.index_iff.2 hindex, hparsed.width_lt,
      hparsed.precision_lt⟩

theorem Keeps.trans {k : ℕ} {data' data'' : FormatData} (h : Keeps k data data')
    (h' : Keeps (k + 1) data' data'') : Keeps k data data'' where
  spec_eq j hj := (h'.spec_eq j (Nat.lt_succ_of_lt hj)).trans (h.spec_eq j hj)
  valueCount_le := h'.valueCount_le

/-- The writer at a conversion. -/
theorem walkFormat_conversion (written : ℕ → ℕ) (hpercent : format.head? ≠ some '%')
    (hindex : index < length - 1) :
    walkFormat data written length (fuel + 1) ('%' :: format) specIndex index =
      if data.Usable specIndex then
        walkFormat data written length fuel (data.spec specIndex).type.tail (specIndex + 1)
          (index + written specIndex)
      else .violates := by
  rw [walkFormat, if_pos hindex, if_pos rfl, if_neg hpercent]

/-- A conversion with a known letter. -/
theorem agrees_conversion {k : ℕ} {rest : List Char} {letter : Char} (h : ParsedSpecs k data)
    (hpercent : format.head? ≠ some '%') (hk : k < maxSpecs) (hfollows : Follows format)
    (htype : typeOf format = letter :: rest) (hletter : IsLetter letter) {data' : FormatData}
    (hparse : parseFormatString (fuel + 1) ('%' :: format) data =
      parseFormatString fuel rest { data' with specCount := data'.specCount + 1 })
    (hparsed : Parsed data data' format)
    (hrest : Agrees (k + 1) fuel rest { data' with specCount := data'.specCount + 1 }) :
    Agrees k (fuel + 1) ('%' :: format) data := by
  have hspecCount := h.specCount_eq
  have hlength := length_typeOf format
  rw [htype, List.length_cons] at hlength
  have hbehind : behind (typeOf format) ≠ none := by
    rw [htype, behind, if_pos hletter]
    exact Option.some_ne_none rest
  have hindex := hfollows.2 hbehind
  have hkeeps := (h.parsed hk hparsed).2
  have husable : data'.Usable k := by
    rw [← hspecCount, hparsed.usable_iff (hspecCount ▸ hk), htype]
    exact ⟨List.cons_ne_nil _ _, hindex⟩
  have htail : ∀ data'', Keeps (k + 1) data' data'' → (data''.spec k).type.tail = rest := by
    intro data'' hkeeps'
    rw [hkeeps'.spec_eq k (Nat.lt_succ_self k), ← hspecCount, hparsed.type_eq, htype,
      List.tail_cons]
  rw [Agrees, hparse]
  constructor
  · intro hacceptable
    have hnext : Acceptable (k + 1) rest := by
      cases hacceptable with
      | percent => exact absurd rfl hpercent
      | char hc => exact absurd rfl hc
      | conversion _ _ _ _ htype' _ hrest' =>
        obtain ⟨-, rfl⟩ := List.cons.inj (htype.symm.trans htype')
        exact hrest'
      | unknown _ _ _ _ htype' hletter' _ =>
        obtain ⟨rfl, -⟩ := List.cons.inj (htype.symm.trans htype')
        exact absurd hletter hletter'
    obtain ⟨data'', hresult, hkeeps', hwalk⟩ := hrest.1 hnext
    have hkeeps'' : Keeps (k + 1) data' data'' := ⟨hkeeps'.spec_eq, hkeeps'.valueCount_le⟩
    refine ⟨data'', hresult, hkeeps.trans hkeeps'', fun written length fuel' index hfuel => ?_⟩
    rw [List.length_cons] at hfuel
    obtain ⟨fuel', rfl⟩ : ∃ n, fuel' = n + 1 := ⟨fuel' - 1, by omega⟩
    by_cases hroom : index < length - 1
    · rw [walkFormat_conversion written hpercent hroom, if_pos (hkeeps''.usable.2 husable),
        htail data'' hkeeps'']
      exact hwalk written length fuel' _ (by omega)
    · exact ⟨index, by rw [walkFormat, if_neg hroom]⟩
  · intro hnot data'' hresult
    have hnext : ¬ Acceptable (k + 1) rest := fun hrest' =>
      hnot (.conversion hpercent hk hfollows.1 hindex htype hletter hrest')
    obtain ⟨hkeeps', hwalk⟩ := hrest.2 hnext data'' hresult
    have hkeeps'' : Keeps (k + 1) data' data'' := ⟨hkeeps'.spec_eq, hkeeps'.valueCount_le⟩
    refine ⟨hkeeps.trans hkeeps'', fun length fuel' index hfuel hroom => ?_⟩
    rw [List.length_cons] at hfuel hroom
    obtain ⟨fuel', rfl⟩ : ∃ n, fuel' = n + 1 := ⟨fuel' - 1, by omega⟩
    rw [walkFormat_conversion _ hpercent (by omega), if_pos (hkeeps''.usable.2 husable),
      htail data'' hkeeps'']
    exact hwalk length fuel' _ (by omega) (by omega)

/-- A conversion with an unknown letter, or none: the parser stops there. -/
theorem agrees_unknown {k : ℕ} (h : ParsedSpecs k data) (hpercent : format.head? ≠ some '%')
    (hk : k < maxSpecs) (hfollows : Follows format) (hbehind : behind (typeOf format) = none)
    {data' : FormatData} (hparse : parseFormatString (fuel + 1) ('%' :: format) data = some data')
    (hparsed : Parsed data data' format) : Agrees k (fuel + 1) ('%' :: format) data := by
  have hspecCount := h.specCount_eq
  have hkeeps := (h.parsed hk hparsed).2
  have husable := hparsed.usable_iff (hspecCount ▸ hk)
  have hlength := length_typeOf format
  rw [hspecCount] at husable
  have htype : (data'.spec k).type = typeOf format := by
    rw [← hspecCount]
    exact hparsed.type_eq
  have hunset : ¬ data'.Usable (k + 1) := by
    intro hnext
    apply hnext.type_set
    rw [hparsed.advances.spec_eq (k + 1) (by omega)]
    exact h.type_unset (k + 1) (Nat.le_succ k)
  rw [Agrees, hparse]
  constructor
  · intro hacceptable
    obtain ⟨letter, rest, htype', hindex, hliteral⟩ : ∃ letter rest,
        typeOf format = letter :: rest ∧ Indexes (argumentIndex format) ∧ Literal rest := by
      cases hacceptable with
      | percent => exact absurd rfl hpercent
      | char hc => exact absurd rfl hc
      | conversion _ _ _ _ htype' hletter _ =>
        rw [htype', behind, if_pos hletter] at hbehind
        cases hbehind
      | unknown _ _ _ hindex htype' _ hrest => exact ⟨_, _, htype', hindex, hrest⟩
    refine ⟨data', rfl, hkeeps, fun written length fuel' index hfuel => ?_⟩
    rw [List.length_cons] at hfuel
    rw [htype', List.length_cons] at hlength
    obtain ⟨fuel', rfl⟩ : ∃ n, fuel' = n + 1 := ⟨fuel' - 1, by omega⟩
    by_cases hroom : index < length - 1
    · have hset : data'.Usable k := husable.2 ⟨htype' ▸ List.cons_ne_nil _ _, hindex⟩
      rw [walkFormat_conversion written hpercent hroom, if_pos hset, htype, htype', List.tail_cons]
      exact walkFormat_literal hliteral _ _ _ _ (by omega)
    · exact ⟨index, by rw [walkFormat, if_neg hroom]⟩
  · intro hnot data'' hresult
    obtain rfl := Option.some.inj hresult
    refine ⟨hkeeps, fun length fuel' index hfuel hroom => ?_⟩
    rw [List.length_cons] at hfuel hroom
    obtain ⟨fuel', rfl⟩ : ∃ n, fuel' = n + 1 := ⟨fuel' - 1, by omega⟩
    rw [walkFormat_conversion _ hpercent (by omega)]
    split
    · next hset =>
      obtain ⟨hne, hindex⟩ := husable.1 hset
      obtain ⟨letter, rest, htype'⟩ := List.exists_cons_of_ne_nil hne
      have hletter : ¬ IsLetter letter := by
        intro hletter
        rw [htype', behind, if_pos hletter] at hbehind
        cases hbehind
      have hliteral : ¬ Literal rest := fun hrest =>
        hnot (.unknown hpercent hk hfollows.1 hindex htype' hletter hrest)
      rw [htype', List.length_cons] at hlength
      rw [htype, htype', List.tail_cons]
      exact walkFormat_violates hunset hliteral (by omega) (by omega)
    · rfl

theorem ParsedSpecs.keeps {k : ℕ} (h : ParsedSpecs k data) : Keeps k data data where
  spec_eq _ _ := rfl
  valueCount_le := by
    have := h.count_eq
    have := h.spec_le
    have hmax : maxArgs = maxSpecs * 3 := rfl
    omega

/-- The parser at a conversion. -/
theorem parseFormatString_conversion (fuel : ℕ) (data : FormatData)
    (hpercent : format.head? ≠ some '%') :
    (parseSpec format data = none → parseFormatString (fuel + 1) ('%' :: format) data = none) ∧
    (∀ data', parseSpec format data = some (none, data') →
      parseFormatString (fuel + 1) ('%' :: format) data = some data') ∧
    ∀ rest data', parseSpec format data = some (some rest, data') →
      parseFormatString (fuel + 1) ('%' :: format) data =
        parseFormatString fuel rest { data' with specCount := data'.specCount + 1 } := by
  have hne : ∀ rest, format = '%' :: rest → False := by
    rintro rest rfl
    exact hpercent rfl
  refine ⟨fun h => ?_, fun data' h => ?_, fun rest data' h => ?_⟩
  all_goals
    rw [parseFormatString]
    · rw [h]
      rfl
    · exact hne

theorem Acceptable.follows {k : ℕ} (h : Acceptable k ('%' :: format))
    (hpercent : format.head? ≠ some '%') : k < maxSpecs ∧ Follows format := by
  cases h with
  | percent => exact absurd rfl hpercent
  | char hc => exact absurd rfl hc
  | conversion _ hk hstars hindex => exact ⟨hk, hstars, fun _ => hindex⟩
  | unknown _ hk hstars hindex => exact ⟨hk, hstars, fun _ => hindex⟩

/-- Nothing is parsed. -/
theorem agrees_none {k : ℕ} (hparse : parseFormatString fuel format data = none)
    (hnot : ¬ Acceptable k format) : Agrees k fuel format data := by
  rw [Agrees, hparse]
  exact ⟨fun h => absurd h hnot, fun _ _ h => by cases h⟩

/-- A literal character, or the two that stand for a percent sign. -/
theorem agrees_literal {k : ℕ} (front : List Char) (hfront : 0 < front.length)
    (hparse : parseFormatString (fuel + 1) (front ++ format) data =
      parseFormatString fuel format data)
    (hacceptable : Acceptable k (front ++ format) ↔ Acceptable k format)
    (hwalk : ∀ data written length fuel index, index < length - 1 →
      walkFormat data written length (fuel + 1) (front ++ format) k index =
        walkFormat data written length fuel format k (index + 1))
    (hne : ∀ data written length fuel index, ¬ index < length - 1 →
      walkFormat data written length (fuel + 1) (front ++ format) k index = .ends index)
    (hrest : Agrees k fuel format data) : Agrees k (fuel + 1) (front ++ format) data := by
  rw [Agrees, hparse, hacceptable]
  constructor
  · intro h
    obtain ⟨data', hresult, hkeeps, hends⟩ := hrest.1 h
    refine ⟨data', hresult, hkeeps, fun written length fuel' index hfuel => ?_⟩
    rw [List.length_append] at hfuel
    obtain ⟨fuel', rfl⟩ : ∃ n, fuel' = n + 1 := ⟨fuel' - 1, by omega⟩
    by_cases hroom : index < length - 1
    · rw [hwalk _ _ _ _ _ hroom]
      exact hends written length fuel' (index + 1) (by omega)
    · exact ⟨index, hne _ _ _ _ _ hroom⟩
  · intro h data' hresult
    obtain ⟨hkeeps, hviolates⟩ := hrest.2 h data' hresult
    refine ⟨hkeeps, fun length fuel' index hfuel hroom => ?_⟩
    rw [List.length_append] at hfuel hroom
    obtain ⟨fuel', rfl⟩ : ∃ n, fuel' = n + 1 := ⟨fuel' - 1, by omega⟩
    rw [hwalk _ _ _ _ _ (by omega)]
    exact hviolates length fuel' (index + 1) (by omega) (by omega)

/-- By induction on the format: the parser and the writer take the same conversions, up to the
first one that the parser does not know. -/
theorem agrees {k : ℕ} (h : ParsedSpecs k data) (hfuel : format.length < fuel) :
    Agrees k fuel format data := by
  induction fuel generalizing k format data with
  | zero => exact absurd hfuel (Nat.not_lt_zero _)
  | succ fuel ih =>
    obtain _ | ⟨c, format⟩ := format
    · refine ⟨fun _ => ⟨data, rfl, h.keeps, fun written length fuel' index hfuel' => ?_⟩,
        fun hnot => absurd .nil hnot⟩
      obtain ⟨fuel', rfl⟩ : ∃ n, fuel' = n + 1 := ⟨fuel' - 1, by omega⟩
      exact ⟨index, rfl⟩
    rw [List.length_cons] at hfuel
    by_cases hc : c = '%'
    · subst hc
      by_cases hpercent : format.head? = some '%'
      · obtain ⟨rest, rfl⟩ : ∃ rest, format = '%' :: rest := by
          cases format with
          | nil => cases hpercent
          | cons d rest => exact ⟨rest, by rw [Option.some.inj hpercent]⟩
        rw [List.length_cons] at hfuel
        refine agrees_literal ['%', '%'] (by decide) rfl ⟨fun hacceptable => ?_,
          .percent⟩ (fun data written length fuel index hroom => ?_)
          (fun data written length fuel index hroom => ?_) (ih h (by omega))
        · cases hacceptable with
          | percent hrest => exact hrest
          | char hc => exact absurd rfl hc
          | conversion hne => exact absurd rfl hne
          | unknown hne => exact absurd rfl hne
        · exact (if_pos hroom).trans rfl
        · exact if_neg hroom
      · obtain ⟨hnone, hstop, hgo⟩ := parseFormatString_conversion fuel data hpercent
        by_cases hk : k < maxSpecs
        · have hspecCount := h.specCount_eq
          have hsum := h.count_eq
          have hmax : maxArgs = maxSpecs * 3 := rfl
          obtain ⟨hok, hfail⟩ := parseSpec_parsed (hspecCount ▸ hk)
            (show data.valueCount + data.immediateCount + 2 < maxArgs by omega) format
          by_cases hfollows : Follows format
          · obtain ⟨data', hspec, hparsed⟩ := hok hfollows
            cases hbehind : behind (typeOf format) with
            | none =>
              rw [hbehind] at hspec
              exact agrees_unknown h hpercent hk hfollows hbehind (hstop data' hspec) hparsed
            | some rest =>
              rw [hbehind] at hspec
              obtain ⟨letter, htype, hletter⟩ : ∃ letter, typeOf format = letter :: rest ∧
                  IsLetter letter := by
                unfold behind at hbehind
                split at hbehind
                · cases hbehind
                · next letter rest' htype =>
                  split at hbehind
                  · next hletter => exact ⟨letter, Option.some.inj hbehind ▸ htype, hletter⟩
                  · cases hbehind
              have hlength := length_typeOf format
              rw [htype, List.length_cons] at hlength
              exact agrees_conversion h hpercent hk hfollows htype hletter (hgo rest data' hspec) hparsed
                (ih (h.parsed hk hparsed).1 (by omega))
          · exact agrees_none (hnone (hfail hfollows)) fun hacceptable =>
              hfollows (hacceptable.follows hpercent).2
        · have hfull := parseSpec_full (h.specCount_eq ▸ hk) format
          exact agrees_none (hnone hfull) fun hacceptable => hk (hacceptable.follows hpercent).1
    · refine agrees_literal [c] (by simp) ?_ ⟨fun hacceptable => ?_, .char hc⟩
        (fun data written length fuel index hroom => ?_)
        (fun data written length fuel index hroom => ?_) (ih h (by omega))
      · rw [List.singleton_append, parseFormatString]
        · exact fun rest heq => absurd heq hc
        · exact fun heq => absurd heq hc
      · cases hacceptable with
        | percent => exact absurd rfl hc
        | char _ hrest => exact hrest
        | conversion => exact absurd rfl hc
        | unknown => exact absurd rfl hc
      · rw [List.singleton_append, walkFormat, if_pos hroom, if_neg hc]
      · rw [List.singleton_append, walkFormat, if_neg hroom]

end Walk

theorem parsedSpecs_initial : ParsedSpecs 0 .initial :=
  ⟨rfl, rfl, by decide, fun _ _ => rfl⟩

/-- Every call with a format is safe exactly if the format is acceptable: if it has 16
conversions at most, each with a letter and without an index beyond the values, and nothing but
literal characters behind a letter that is unknown. -/
theorem safeFormat_iff (format : List Char) : SafeFormat format ↔ Acceptable 0 format := by
  have hagrees : Agrees 0 (format.length + 1) format .initial :=
    agrees parsedSpecs_initial (Nat.lt_succ_self _)
  constructor
  · intro hsafe
    by_contra hnot
    obtain ⟨data, hparse, -, index, hwalk⟩ := hsafe (fun _ => 0) (format.length + 2)
    have hviolates := (hagrees.2 hnot data hparse).2 (format.length + 2) (format.length + 1) 0
      (by omega) (by omega)
    rw [hwalk] at hviolates
    cases hviolates
  · intro hacceptable written length
    obtain ⟨data, hparse, hkeeps, hwalk⟩ := hagrees.1 hacceptable
    exact ⟨data, hparse, hkeeps.valueCount_le, hwalk written length _ 0 (by omega)⟩

/-- The writer goes on behind the end of the format `%`, and in `%y%d` it takes the specifier of
a conversion that has not been parsed. The parser stores the type of value 48 for `%49$d`. -/
theorem not_safeFormat : ¬ SafeFormat ['%'] ∧ ¬ SafeFormat ['%', 'y', '%', 'd'] ∧
    ¬ SafeFormat ['%', '4', '9', '$', 'd'] := by
  have hnot (format : List Char) (h : ((parseFormatString (format.length + 1) format
      .initial).map fun data => walkFormat data (fun _ => 0) 100 (format.length + 1) format 0 0) ∈
        [none, some .violates]) : ¬ SafeFormat format := by
    intro hsafe
    obtain ⟨data, hparse, -, index, hwalk⟩ := hsafe (fun _ => 0) 100
    rw [hparse, Option.map_some, hwalk] at h
    simp at h
  exact ⟨hnot _ (by decide +kernel), hnot _ (by decide +kernel), hnot _ (by decide +kernel)⟩

end OMR.Port.Format
