import OMR.Port.FormatWriters

/-!
# What the writers write

Each writer has a text that does not depend on the room it gets. It writes as much of the text
as fits, except that the last character of the room may be another one.
-/

namespace OMR.Port.Format

/-- The characters of a text that is stored at an offset. -/
def window (buf : Buffer) (i : ℤ) (text : List Char) (o : ℤ) : Option Char :=
  buf.bind fun base => if base + i ≤ o then text[(o - base - i).toNat]? else none

section Window

variable {buf : Buffer} {i o : ℤ} {text : List Char} {m : Memory}

@[simp] theorem window_nil : window buf i [] o = none := by
  cases buf <;> simp [window]

theorem window_append (a b : List Char) :
    window buf i (a ++ b) o = (window buf (i + a.length) b o).or (window buf i a o) := by
  cases buf with
  | none => rfl
  | some base =>
    simp only [window, Option.bind_some]
    by_cases hlow : base + i ≤ o
    · by_cases hin : base + (i + a.length) ≤ o
      · rw [if_pos hlow, if_pos hin, if_pos hlow, List.getElem?_append_right (by omega),
          List.getElem?_eq_none (l := a) (by omega), Option.or_none]
        congr 1
        omega
      · rw [if_pos hlow, if_neg hin, if_pos hlow, List.getElem?_append_left (by omega),
          Option.none_or]
    · rw [if_neg hlow, if_neg (by omega), if_neg hlow, Option.none_or]

theorem store_eq (c : Char) : store buf i c m o = (window buf i [c] o).or (m o) := by
  cases buf with
  | none => rfl
  | some base =>
    simp only [store, window, Option.bind_some]
    by_cases ho : o = base + i
    · subst ho
      simp
    · rw [Function.update_of_ne ho]
      split
      · rw [List.getElem?_eq_none (by simp only [List.length_singleton]; omega), Option.none_or]
      · rw [Option.none_or]

theorem storeAll_eq : storeAll buf i text m o = (window buf i text o).or (m o) := by
  induction text generalizing i m with
  | nil => rw [storeAll, window_nil, Option.none_or]
  | cons c text ih =>
    rw [storeAll, ih, store_eq, ← Option.or_assoc]
    exact congrArg (Option.or · _) (window_append [c] text).symm

theorem storeAll_append (a b : List Char) :
    storeAll buf i (a ++ b) m = storeAll buf (i + a.length) b (storeAll buf i a m) := by
  funext o
  rw [storeAll_eq, storeAll_eq, storeAll_eq, window_append, Option.or_assoc]

/-- Two texts that do not overlap. -/
theorem window_or_comm {j : ℤ} {text' : List Char} (h : i + text.length ≤ j) :
    (window buf i text o).or (window buf j text' o) =
      (window buf j text' o).or (window buf i text o) := by
  cases buf with
  | none => rfl
  | some base =>
    simp only [window, Option.bind_some]
    by_cases hj : base + j ≤ o
    · have hi : base + i ≤ o := by omega
      rw [if_pos hi, List.getElem?_eq_none (l := text) (by omega), Option.none_or, Option.or_none]
    · rw [if_neg hj, Option.none_or, Option.or_none]

theorem window_eq_some {c : Char} {base : ℤ} {p : ℕ} (h : text[p]? = some c) :
    window (some base) 0 text (base + p) = some c := by
  simp [window, h]

/-- Nothing is stored before or behind the text. -/
theorem window_eq_none (h : ∀ base, buf = some base → o < base + i ∨ base + i + text.length ≤ o) :
    window buf i text o = none := by
  cases buf with
  | none => rfl
  | some base =>
    simp only [window, Option.bind_some]
    split
    · have := h base rfl
      exact List.getElem?_eq_none (by omega)
    · rfl

end Window

/-- A writer used so much of the room for the text, and left the rest of the memory alone. -/
structure Writes (buf : Buffer) (room : ℕ) (text : List Char) (m m' : Memory) (used : ℕ) :
    Prop where
  used_eq : used = min text.length room
  inside : ∀ base, buf = some base → ∀ p : ℕ, p < used →
    ∃ c, m' (base + p) = some c ∧ (p + 1 < room → text[p]? = some c)
  outside : ∀ o, (∀ base, buf = some base → o < base ∨ base + used ≤ o) → m' o = m o

/-- As much of a text as fits is stored. -/
theorem Writes.of_take (buf : Buffer) (room : ℕ) (text : List Char) (m : Memory) :
    Writes buf room text m (storeAll buf 0 (text.take room) m) (min text.length room) where
  used_eq := rfl
  inside := by
    rintro base rfl p hp
    have hget : (text.take room)[p]? = some text[p] := by
      rw [List.getElem?_take_of_lt (by omega), List.getElem?_eq_getElem]
    refine ⟨text[p], ?_, fun _ => List.getElem?_eq_getElem _⟩
    rw [storeAll_eq, window_eq_some hget]
    rfl
  outside := by
    intro o ho
    rw [storeAll_eq, window_eq_none, Option.none_or]
    intro base hbase
    have := ho base hbase
    rw [List.length_take]
    omega

/-- The last character of the room does not count. -/
theorem Writes.congr {buf : Buffer} {room used : ℕ} {text text' : List Char} {m m' : Memory}
    (h : Writes buf room text m m' used) (hlen : text.length = text'.length)
    (hget : ∀ p, p + 1 < room → text[p]? = text'[p]?) : Writes buf room text' m m' used where
  used_eq := hlen ▸ h.used_eq
  inside := by
    intro base hbase p hp
    obtain ⟨c, hc, htext⟩ := h.inside base hbase p hp
    exact ⟨c, hc, fun hroom => hget p hroom ▸ htext hroom⟩
  outside := h.outside

/-- The last character that was written is replaced. -/
theorem Writes.setLast {buf : Buffer} {room used : ℕ} {text : List Char} {m m' : Memory}
    (h : Writes buf room text m m' used) (hpos : 0 < used) (c : Char) :
    Writes buf room (text.dropLast ++ [c]) m (store buf (used - 1) c m') used where
  used_eq := by
    have := h.used_eq
    rw [List.length_append, List.length_dropLast, List.length_singleton]
    omega
  inside := by
    rintro base rfl p hp
    have hused := h.used_eq
    rw [store]
    by_cases hlast : p = used - 1
    · refine ⟨c, ?_, fun hroom => ?_⟩
      · rw [show base + (p : ℤ) = base + ((used : ℤ) - 1) by omega, Function.update_self]
      · rw [List.getElem?_append_right (by rw [List.length_dropLast]; omega),
          show p - text.dropLast.length = 0 by rw [List.length_dropLast]; omega]
        rfl
    · obtain ⟨d, hd, htext⟩ := h.inside base rfl p hp
      refine ⟨d, ?_, fun hroom => ?_⟩
      · rw [Function.update_of_ne (by omega), hd]
      · rw [List.getElem?_append_left (by rw [List.length_dropLast]; omega),
          List.getElem?_dropLast, if_pos (by omega)]
        exact htext hroom
  outside := by
    intro o ho
    rw [← h.outside o ho]
    cases buf with
    | none => rfl
    | some base =>
      have := ho base rfl
      exact Function.update_of_ne (by omega) ..

section Strings

variable (width precision : ℕ) (value : List Char) (tag : Tag)

/-- The whole text of a string. -/
def stringText : List Char :=
  let text := value.take (available precision value)
  let padding := paddings width (available precision value) tag
  List.replicate padding.1 ' ' ++ text ++ List.replicate padding.2 ' '

theorem available_le {α : Type*} (precision : ℕ) (value : List α) :
    available precision value ≤ value.length := by
  rw [available]
  split
  · exact le_rfl
  · exact min_le_right _ _

/-- Padding on both sides, each part cut to the room that is left. -/
theorem writes_padded (buf : Buffer) (l r room : ℕ) (text : List Char) (m : Memory)
    {taken used : ℕ} (htaken : taken = min text.length (room - min l room))
    (hused : used = min r (room - min l room - taken)) :
    Writes buf room (List.replicate l ' ' ++ text ++ List.replicate r ' ') m
      (storeAll buf ((min l room : ℕ) + taken) (List.replicate used ' ')
        (storeAll buf (min l room : ℕ) (text.take taken)
          (storeAll buf 0 (List.replicate (min l room) ' ') m)))
      (min l room + taken + used) := by
  have hcut : (List.replicate l ' ' ++ text ++ List.replicate r ' ').take room =
      List.replicate (min l room) ' ' ++ text.take taken ++ List.replicate used ' ' := by
    rw [List.append_assoc, List.take_append, List.take_append, List.take_replicate,
      List.take_replicate, List.length_replicate, List.append_assoc]
    subst hused htaken
    congr 2
    · rw [min_comm]
    · have hroom : room - min l room = room - l := by omega
      rw [hroom, min_comm, ← List.take_take, List.take_length]
    · congr 1
      omega
  have hlen : min (List.replicate l ' ' ++ text ++ List.replicate r ' ').length room =
      min l room + taken + used := by
    simp only [List.length_append, List.length_replicate]
    omega
  have hall := Writes.of_take buf room (List.replicate l ' ' ++ text ++ List.replicate r ' ') m
  rw [hcut, hlen, storeAll_append, storeAll_append] at hall
  simpa [htaken] using hall

theorem writeStringToBuffer_writes (buf : Buffer) (bufLen : ℕ) (m : Memory) :
    Writes buf bufLen (stringText width precision value tag) m
      (writeStringToBuffer buf bufLen width precision value tag m).2
      (writeStringToBuffer buf bufLen width precision value tag m).1 := by
  have hle := available_le precision value
  have hlen : (value.take (available precision value)).length = available precision value := by
    rw [List.length_take, min_eq_left hle]
  have hwrites := writes_padded buf (paddings width (available precision value) tag).1
    (paddings width (available precision value) tag).2 bufLen
    (value.take (available precision value)) m rfl rfl
  rw [hlen, List.take_take] at hwrites
  have hmin : ∀ n, min (min (available precision value) n) (available precision value) =
      min (available precision value) n := fun n => min_eq_left (min_le_left _ _)
  rw [hmin] at hwrites
  exact hwrites

end Strings

section Int

variable {buf : Buffer} {bufLen : ℕ}

/-- The characters were written backwards, as far as they are inside the buffer. -/
structure Wrote (buf : Buffer) (bufLen : ℕ) (s s' : Backwards) (text : List Char) : Prop where
  length_eq : s'.length + text.length = s.length
  index_eq : s'.index + min s'.length bufLen = s.index + min s.length bufLen
  memory_eq : ∀ o, s'.memory o =
    (window buf s'.length (text.take (bufLen - s'.length)) o).or (s.memory o)

theorem Wrote.refl (s : Backwards) : Wrote buf bufLen s s [] :=
  ⟨rfl, rfl, fun o => by simp⟩

/-- What is written next stands in front. -/
theorem Wrote.trans {s s' s'' : Backwards} {text text' : List Char}
    (h : Wrote buf bufLen s s' text) (h' : Wrote buf bufLen s' s'' text') :
    Wrote buf bufLen s s'' (text' ++ text) where
  length_eq := by
    have := h.length_eq
    have := h'.length_eq
    rw [List.length_append]
    omega
  index_eq := h'.index_eq.trans h.index_eq
  memory_eq := by
    intro o
    have hlen := h'.length_eq
    rw [h'.memory_eq, h.memory_eq, ← Option.or_assoc, List.take_append]
    congr 1
    by_cases hin : s'.length ≤ bufLen
    · have htake : text'.take (bufLen - s''.length) = text' := List.take_of_length_le (by omega)
      have hsub : bufLen - s''.length - text'.length = bufLen - s'.length := by omega
      have hoff : (s''.length : ℤ) + text'.length = s'.length := by omega
      rw [htake, hsub, window_append, hoff]
      exact window_or_comm (by omega)
    · have hout : bufLen - s'.length = 0 := by omega
      have hsub : bufLen - s''.length - text'.length = 0 := by omega
      rw [hout, hsub, List.take_zero, List.append_nil, window_nil, Option.or_none]

theorem Wrote.put (buf : Buffer) (bufLen : ℕ) {s : Backwards} (c : Char) (hpos : 0 < s.length) :
    Wrote buf bufLen s (s.put buf bufLen c) [c] := by
  rw [Backwards.put]
  split
  · next hlt =>
    refine ⟨Nat.sub_add_cancel hpos, ?_, fun o => ?_⟩
    · change s.index + 1 + min (s.length - 1) bufLen = _
      omega
    · rw [List.take_of_length_le (by simp only [List.length_singleton]; omega)]
      exact store_eq c
  · next hlt =>
    refine ⟨Nat.sub_add_cancel hpos, ?_, fun o => ?_⟩
    · change s.index + min (s.length - 1) bufLen = _
      omega
    · have hzero : bufLen - (s.length - 1) = 0 := by omega
      change s.memory o = _
      simp [hzero]

theorem putRightSpace_wrote (n : ℕ) {s : Backwards} (hn : n ≤ s.length) :
    Wrote buf bufLen s (putRightSpace buf bufLen n s) (List.replicate n ' ') := by
  induction n generalizing s with
  | zero => exact Wrote.refl s
  | succ n ih =>
    have hput := Wrote.put buf bufLen (s := s) ' ' (by omega)
    have hlen := hput.length_eq
    rw [List.length_singleton] at hlen
    rw [List.replicate_succ']
    exact hput.trans (ih (by omega))

/-- The digits of a number. -/
def digitsText (digits : List Char) : ℕ → ℕ → List Char
  | 0, _ => []
  | fuel + 1, temp =>
    (if temp / digits.length = 0 then [] else digitsText digits fuel (temp / digits.length)) ++
      [digits.getD (temp % digits.length) nul]

theorem length_digitsText (digits : List Char) (fuel temp : ℕ) :
    (digitsText digits fuel temp).length = numberLength digits.length fuel temp := by
  induction fuel generalizing temp with
  | zero => rfl
  | succ fuel ih =>
    rw [digitsText, numberLength]
    split
    · rfl
    · rw [List.length_append, ih, List.length_singleton]

theorem putDigits_wrote (digits : List Char) (fuel temp : ℕ) {s : Backwards}
    (hlen : numberLength digits.length fuel temp ≤ s.length) :
    Wrote buf bufLen s (putDigits buf bufLen digits fuel temp s) (digitsText digits fuel temp) := by
  induction fuel generalizing temp s with
  | zero => exact Wrote.refl s
  | succ fuel ih =>
    rw [numberLength] at hlen
    have hpos : 0 < s.length := by
      split at hlen
      all_goals omega
    have hput := Wrote.put buf bufLen
      (digits.getD (temp % digits.length) nul) hpos
    have hput_len := hput.length_eq
    rw [List.length_singleton] at hput_len
    rw [digitsText, putDigits]
    split
    · exact hput
    · next hne =>
      rw [if_neg hne] at hlen
      exact hput.trans (ih (temp / digits.length) (by omega))

/-- Without a buffer, only the length of the text is used. -/
theorem Wrote.of_null {s s' : Backwards} {text text' : List Char} (h : Wrote none bufLen s s' text)
    (hlen : text.length = text'.length) : Wrote none bufLen s s' text' where
  length_eq := hlen ▸ h.length_eq
  index_eq := h.index_eq
  memory_eq := h.memory_eq

/-- What is written in front of the digits, where the sign is printed at most once. -/
def extension (bufLen : ℕ) : ℕ → ℤ → Option Char → List Char
  | 0, _, _ => []
  | n + 1, actualPrecision, signChar =>
    if n < bufLen then
      if actualPrecision ≥ 1 then extension bufLen n (actualPrecision - 1) signChar ++ ['0']
      else extension bufLen n (actualPrecision - 1) none ++ [signChar.getD ' ']
    else extension bufLen n (actualPrecision - 1) signChar ++ [' ']

theorem length_extension (n : ℕ) (actualPrecision : ℤ) (signChar : Option Char) :
    (extension bufLen n actualPrecision signChar).length = n := by
  induction n generalizing actualPrecision signChar with
  | zero => rfl
  | succ n ih =>
    rw [extension]
    split_ifs
    all_goals rw [List.length_append, ih, List.length_singleton]

theorem putExtension_wrote (n : ℕ) (actualPrecision : ℤ) (signChar : Option Char) {s : Backwards}
    (hn : s.length = n) :
    Wrote buf bufLen s (putExtension buf bufLen n actualPrecision signChar s)
      (extension bufLen n actualPrecision signChar) := by
  induction n generalizing actualPrecision signChar s with
  | zero => exact Wrote.refl s
  | succ n ih =>
    have hput : ∀ c, Wrote buf bufLen s (s.put buf bufLen c) [c] :=
      fun c => Wrote.put buf bufLen c (by omega)
    have hnext : ∀ c, (s.put buf bufLen c).length = n := by
      intro c
      have := (hput c).length_eq
      rw [List.length_singleton] at this
      omega
    have hpred : s.length - 1 = n := by omega
    rw [putExtension, extension, hpred]
    by_cases hin : n < bufLen
    · rw [if_pos hin, if_pos hin]
      by_cases hzero : actualPrecision ≥ 1
      · rw [if_pos hzero, if_pos (by omega)]
        exact (hput '0').trans (ih _ _ (hnext _))
      · rw [if_neg hzero, if_neg (by omega)]
        refine (hput _).trans ?_
        cases buf with
        | none => exact (ih _ signChar (hnext _)).of_null (by simp only [length_extension])
        | some base => exact ih _ none (hnext _)
    · rw [if_neg hin, if_neg hin]
      exact (hput ' ').trans (ih _ _ (hnext _))

/-- Zeros, and in front of them the sign and spaces. -/
def extensionText (n : ℕ) (actualPrecision : ℤ) (signChar : Option Char) : List Char :=
  let zeros := min actualPrecision.toNat n
  (List.replicate (n - zeros) ' ').set (n - zeros - 1) (signChar.getD ' ') ++
    List.replicate zeros '0'

theorem length_extensionText (n : ℕ) (actualPrecision : ℤ) (signChar : Option Char) :
    (extensionText n actualPrecision signChar).length = n := by
  simp only [extensionText, List.length_append, List.length_set, List.length_replicate]
  omega

/-- The character at a place in front of the digits. -/
def extensionChar (n p : ℕ) (actualPrecision : ℤ) (signChar : Option Char) : Char :=
  if (n : ℤ) - p ≤ actualPrecision then '0'
  else if (n : ℤ) - p - 1 = max actualPrecision 0 then signChar.getD ' ' else ' '

/-- In the last place of the room, the sign may stand too far to the left. -/
theorem getElem?_extension {n p : ℕ} (actualPrecision : ℤ) (signChar : Option Char) (hn : p < n)
    (hp : p + 1 < bufLen) : (extension bufLen n actualPrecision signChar)[p]? =
      some (extensionChar n p actualPrecision signChar) := by
  induction n generalizing actualPrecision signChar with
  | zero => omega
  | succ n ih =>
    have hlast : ∀ ap sign c, (extension bufLen n ap sign ++ [c])[n]? = some c := by
      intro ap sign c
      rw [List.getElem?_append_right (by rw [length_extension]), length_extension, Nat.sub_self]
      rfl
    have hfront : p < n → ∀ ap sign c, (extension bufLen n ap sign ++ [c])[p]? =
        some (extensionChar n p ap sign) := by
      intro hlt ap sign c
      rw [List.getElem?_append_left (by rwa [length_extension]), ih ap sign hlt]
    rw [extension]
    obtain rfl | hlt := Nat.eq_or_lt_of_le (Nat.lt_succ_iff.mp hn)
    · rw [if_pos (by omega)]
      split_ifs with hone
      · rw [hlast, extensionChar, if_pos (by omega)]
      · rw [hlast, extensionChar, if_neg (by omega), if_pos (by omega)]
    · split_ifs with hin hone
      · rw [hfront hlt]
        simp only [extensionChar]
        congr 1
        split_ifs <;> first | rfl | omega
      · rw [hfront hlt]
        simp only [extensionChar]
        congr 1
        split_ifs <;> first | rfl | omega
      · rw [hfront hlt]
        simp only [extensionChar]
        congr 1
        split_ifs <;> first | rfl | omega

theorem getElem?_extensionText {n p : ℕ} (actualPrecision : ℤ) (signChar : Option Char)
    (hn : p < n) : (extensionText n actualPrecision signChar)[p]? =
      some (extensionChar n p actualPrecision signChar) := by
  simp only [extensionText, extensionChar]
  split_ifs with hzero hsign
  · rw [List.getElem?_append_right (by simp only [List.length_set, List.length_replicate]; omega),
      List.getElem?_replicate, if_pos]
    simp only [List.length_set, List.length_replicate]
    omega
  · rw [List.getElem?_append_left (by simp only [List.length_set, List.length_replicate]; omega),
      List.getElem?_set, if_pos (by omega), if_pos]
    simp only [List.length_replicate]
    omega
  · rw [List.getElem?_append_left (by simp only [List.length_set, List.length_replicate]; omega),
      List.getElem?_set, if_neg (by omega), List.getElem?_replicate, if_pos (by omega)]

/-- Once the whole number is written. -/
theorem Wrote.writes {n : ℕ} {m : Memory} {s : Backwards} {text : List Char}
    (h : Wrote buf bufLen ⟨n, 0, m⟩ s text) (hdone : s.length = 0) :
    Writes buf bufLen text m s.memory s.index := by
  have hlen : text.length = n := by
    have := h.length_eq
    rwa [hdone, Nat.zero_add] at this
  have hindex : s.index = min text.length bufLen := by
    have hindex : s.index + min s.length bufLen = 0 + min n bufLen := h.index_eq
    rw [hlen]
    omega
  have hmemory : s.memory = storeAll buf 0 (text.take bufLen) m := by
    funext o
    have := h.memory_eq o
    rw [hdone, Nat.sub_zero] at this
    rw [this, storeAll_eq]
    rfl
  rw [hmemory, hindex]
  exact Writes.of_take buf bufLen text m

/-- The spaces on the right, the digits and the extension to the left. -/
theorem writes_backwards (digits : List Char) {length rightSpace value : ℕ}
    (actualPrecision : ℤ) (signChar : Option Char) (m : Memory) {right number whole : Backwards}
    (hroom : rightSpace + numberLength digits.length 64 value ≤ length)
    (hright : right = putRightSpace buf bufLen rightSpace ⟨length, 0, m⟩)
    (hnumber : number = putDigits buf bufLen digits 64 value right)
    (hwhole : whole = putExtension buf bufLen number.length
      (actualPrecision - (right.length - number.length)) signChar number) :
    Writes buf bufLen
      (extensionText (length - rightSpace - numberLength digits.length 64 value)
          (actualPrecision - numberLength digits.length 64 value) signChar ++
        digitsText digits 64 value ++ List.replicate rightSpace ' ')
      m whole.memory whole.index := by
  have hwroteRight : Wrote buf bufLen ⟨length, 0, m⟩ right (List.replicate rightSpace ' ') := by
    rw [hright]
    exact putRightSpace_wrote rightSpace (Nat.le_trans (Nat.le_add_right _ _) hroom)
  have hlenRight : right.length + rightSpace = length := by
    simpa using hwroteRight.length_eq
  have hwroteNumber : Wrote buf bufLen right number (digitsText digits 64 value) := by
    rw [hnumber]
    exact putDigits_wrote digits 64 value (by omega)
  have hlenNumber : number.length + numberLength digits.length 64 value = right.length := by
    rw [← length_digitsText]
    exact hwroteNumber.length_eq
  have hwroteWhole : Wrote buf bufLen number whole
      (extension bufLen number.length (actualPrecision - (right.length - number.length)) signChar) := by
    rw [hwhole]
    exact putExtension_wrote _ _ _ rfl
  have hdone : whole.length = 0 := by
    have := hwroteWhole.length_eq
    rw [length_extension] at this
    omega
  have hplaces : length - rightSpace - numberLength digits.length 64 value = number.length := by
    omega
  have hprecision : actualPrecision - (right.length - number.length) =
      actualPrecision - numberLength digits.length 64 value := by
    omega
  rw [hprecision] at hwroteWhole
  rw [hplaces]
  refine ((hwroteRight.trans hwroteNumber).trans hwroteWhole |>.writes hdone).congr ?_ ?_
  · simp only [List.length_append, length_extension, length_extensionText]
    omega
  · intro p hp
    simp only [List.append_assoc]
    simp only [List.getElem?_append, length_extension, length_extensionText]
    split
    · next hfront => rw [getElem?_extension _ _ hfront hp, getElem?_extensionText _ _ hfront]
    · rfl

variable (width precision value : ℕ) (tag : Tag) (isSigned : Bool) (digits : List Char)

/-- The whole text of a number. -/
def intText : List Char :=
  let (value, signChar) := signOf value tag isSigned
  let number := digitsText digits 64 value
  let actualPrecision := if precision ≠ noValue then toInt32 precision else 0
  let length := if precision ≠ noValue then max number.length (precision % 2 ^ 32)
    else number.length
  let length := if signChar.isSome then length + 1 else length
  let whole := if width ≠ noValue then max length (width % 2 ^ 32) else length
  let rightSpace := if tag.dash then whole - length else 0
  let actualPrecision := if tag.zero then toInt32 (whole - if signChar.isSome then 1 else 0)
    else actualPrecision
  extensionText (whole - rightSpace - number.length) (actualPrecision - number.length) signChar ++
    number ++ List.replicate rightSpace ' '

theorem writeIntToBuffer_writes (m : Memory) :
    Writes buf bufLen (intText width precision value tag isSigned digits) m
      (writeIntToBuffer buf bufLen width precision value tag isSigned digits m).2
      (writeIntToBuffer buf bufLen width precision value tag isSigned digits m).1 := by
  rw [intText, writeIntToBuffer]
  obtain ⟨value, signChar⟩ := signOf value tag isSigned
  simp only [length_digitsText]
  generalize hn : numberLength digits.length 64 value = n
  have hprecision : (if precision ≠ noValue ∧ precision % 2 ^ 32 > n then precision % 2 ^ 32
      else n) = if precision ≠ noValue then max n (precision % 2 ^ 32) else n := by
    split_ifs <;> omega
  rw [hprecision]
  generalize hlen : (if signChar.isSome = true then
    (if precision ≠ noValue then max n (precision % 2 ^ 32) else n) + 1
    else if precision ≠ noValue then max n (precision % 2 ^ 32) else n) = length
  have hle : n ≤ length := by
    rw [← hlen]
    split_ifs <;> omega
  have hwhole : (if width ≠ noValue ∧ width % 2 ^ 32 > length then width % 2 ^ 32 else length) =
      if width ≠ noValue then max length (width % 2 ^ 32) else length := by
    split_ifs <;> omega
  have hright : (if (width ≠ noValue ∧ width % 2 ^ 32 > length) ∧ tag.dash = true
      then width % 2 ^ 32 - length else 0) = if tag.dash = true then
        (if width ≠ noValue ∧ width % 2 ^ 32 > length then width % 2 ^ 32 else length) - length
        else 0 := by
    by_cases hwider : width ≠ noValue ∧ width % 2 ^ 32 > length
    · simp only [if_pos hwider, and_iff_right hwider]
    · rw [if_neg hwider, if_neg fun h => hwider h.1, Nat.sub_self, ite_self]
  rw [hright, hwhole]
  generalize hmax : (if width ≠ noValue then max length (width % 2 ^ 32) else length) = whole
  have hwider : length ≤ whole := by
    rw [← hmax]
    split_ifs <;> omega
  have hroom : (if tag.dash = true then whole - length else 0) + n ≤ whole := by
    split_ifs <;> omega
  subst hn
  exact writes_backwards digits _ signChar m hroom rfl rfl rfl

end Int

end OMR.Port.Format
