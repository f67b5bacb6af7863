import OMR.Compiler.SparseBitVector

/-!
# Setting bits of a sparse bit vector

An array of a segment has at most 65535 elements, one less than there are lower halves. So bits
can be set, by themselves or as an array, until a segment would have all of them.
-/

namespace OMR.Compiler.SparseBitVector

section Halves

theorem lowHalf_lt (index : BitVec 32) : lowHalf index < 2 ^ 16 := Nat.mod_lt _ (by decide)

theorem highHalf_eq (index : BitVec 32) : highHalf index = index.toNat / 2 ^ 16 :=
  Nat.shiftRight_eq_div_pow ..

theorem highHalf_lt (index : BitVec 32) : highHalf index < 2 ^ 16 := by
  have hlt := index.isLt
  rw [highHalf_eq]
  omega

theorem toNat_eq (index : BitVec 32) : index.toNat = highHalf index * 2 ^ 16 + lowHalf index := by
  rw [highHalf_eq, lowHalf]
  omega

/-- An index with two given halves. -/
theorem exists_index {high low : ℕ} (hhigh : high < 2 ^ 16) (hlow : low < 2 ^ 16) :
    ∃ index, highHalf index = high ∧ lowHalf index = low := by
  have hval : (BitVec.ofNat 32 (high * 2 ^ 16 + low)).toNat = high * 2 ^ 16 + low := by
    rw [BitVec.toNat_ofNat, Nat.mod_eq_of_lt (by omega)]
  refine ⟨BitVec.ofNat 32 (high * 2 ^ 16 + low), ?_, ?_⟩
  · rw [highHalf_eq, hval]
    omega
  · rw [lowHalf, hval]
    omega

end Halves

variable {s : Segment} {v v' : List Segment} {high : ℕ}

theorem highBits_or {low : ℕ} (hlow : low < 2 ^ 16) :
    s.highBits ||| low = s.fHighBits * 2 ^ 16 + low := by
  rw [Segment.highBits, ← Nat.shiftLeft_add_eq_or_of_lt hlow, Nat.shiftLeft_eq]

/-- A well-formed segment lacks a value. -/
theorem Segment.WellFormed.exists_not_mem (h : s.WellFormed) : ∃ x < 2 ^ 16, x ∉ s.values := by
  by_contra hnone
  have hall : ∀ x < 2 ^ 16, x ∈ s.values := fun x hx => by
    by_contra hnot
    exact hnone ⟨x, hx, hnot⟩
  have hsub : Finset.range (2 ^ 16) ⊆ s.values.toFinset := fun x hx =>
    List.mem_toFinset.2 (hall x (Finset.mem_range.1 hx))
  have hcard := (Finset.card_le_card hsub).trans (List.toFinset_card_le _)
  have hle := h.length_le.trans h.fSize_le
  rw [Finset.card_range] at hcard
  unfold kSegmentMask at hle
  omega

/-- Sorted values of which one is missing fit into the largest array. -/
theorem length_le_of_not_mem {l : List ℕ} (h : l.Pairwise (· < ·)) (hlt : ∀ x ∈ l, x < 2 ^ 16)
    {x : ℕ} (hx : x < 2 ^ 16) (hnot : x ∉ l) : l.length ≤ kSegmentMask := by
  have hsub : ∀ y ∈ l, y ∈ (Finset.range (2 ^ 16)).erase x := fun y hy =>
    Finset.mem_erase.2 ⟨fun heq => hnot (heq ▸ hy), Finset.mem_range.2 (hlt y hy)⟩
  refine (length_le_card h hsub).trans_eq ?_
  rw [Finset.card_erase_of_mem (Finset.mem_range.2 hx), Finset.card_range]
  rfl

theorem getSegment_iff (h : s.WellFormed) (bit : ℕ) :
    getSegment s bit = true ↔ bit % 2 ^ 16 ∈ s.values := by
  have hindex := findIndex_spec h.sorted h.ne_nil (bit % 2 ^ 16)
  rw [hindex.mem_iff h.sorted, getSegment]
  split
  next hlt => exact ⟨fun heq => ⟨hlt, (of_decide_eq_true heq).symm⟩, fun heq =>
    decide_eq_true heq.2.symm⟩
  next hnot => exact ⟨fun hfalse => absurd hfalse Bool.false_ne_true, fun hlt => absurd hlt.1 hnot⟩

theorem insertIdx_eq_append {l : List ℕ} (x : ℕ) {t : ℕ} (ht : t ≤ l.length) :
    l.insertIdx t x = l.take t ++ x :: l.drop t := by
  induction l generalizing t with
  | nil =>
    obtain rfl : t = 0 := Nat.le_zero.1 ht
    rfl
  | cons a l ih =>
    cases t with
    | zero => rfl
    | succ t =>
      rw [List.insertIdx_succ_cons, ih (Nat.le_of_succ_le_succ ht)]
      rfl

/-- Values are inserted at the position that splits them. -/
theorem insertIdx_spec {l : List ℕ} (h : l.Pairwise (· < ·)) {x t : ℕ} (ht : IsIndex l x t)
    (hx : x ∉ l) :
    (l.insertIdx t x).Pairwise (· < ·) ∧ (∀ y, y ∈ l.insertIdx t x ↔ y = x ∨ y ∈ l) ∧
      (l.insertIdx t x).length = l.length + 1 := by
  have heq : l.insertIdx t x = l.take t ++ x :: l.drop t := insertIdx_eq_append x ht.le_length
  refine ⟨?_, fun y => List.mem_insertIdx ht.le_length, ?_⟩
  · rw [heq]
    refine List.pairwise_append.2 ⟨h.sublist (List.take_sublist ..),
      List.pairwise_cons.2 ⟨fun y hy => ?_, h.sublist (List.drop_sublist ..)⟩, ?_⟩
    · refine lt_of_le_of_ne (ht.le_drop y hy) ?_
      rintro rfl
      exact hx (List.mem_of_mem_drop hy)
    · intro y hy z hz
      rcases List.mem_cons.1 hz with rfl | hz
      · exact ht.take_lt y hy
      · exact (ht.take_lt y hy).trans_le (ht.le_drop z hz)
  · rw [List.length_insertIdx, if_pos ht.le_length]

/-- A full array is made larger, up to 65535 elements. -/
theorem growSegment_full (hpos : 0 < s.fSize) :
    growSegment s s.fSize (s.fSize + 1) = { s with fSize := grownSize (s.fSize + 1) } := by
  have hfresh := growSegment_fresh s.fHighBits s.fSize (Nat.succ_pos s.fSize)
  unfold growSegment at hfresh ⊢
  rw [if_pos (Nat.succ_pos _)] at hfresh ⊢
  have hraw : s.fSize < (if s.fSize + 1 ≤ 1024 then 2 * floorPowerOfTwo (s.fSize + 1 - 1)
      else 1024 + 1024 * ((s.fSize + 1 - 1) / 1024)) := by
    split
    · have hpow : s.fSize + 1 - 1 < 2 ^ ((s.fSize + 1 - 1).log2 + 1) := Nat.lt_log2_self
      unfold floorPowerOfTwo
      rw [pow_succ] at hpow
      omega
    · omega
  rw [if_neg (Nat.not_lt_zero _), if_pos rfl] at hfresh
  rw [if_neg (not_lt.2 hraw.le), if_neg hpos.ne']
  have hsize := congrArg Segment.fSize hfresh
  dsimp only at hsize ⊢
  rw [hsize]

/-- What setting bits of one segment gives, when it writes nothing behind the array. -/
structure Extended (s : Segment) (lows : List ℕ) (s' : Segment) : Prop where
  wellFormed : s'.WellFormed
  fHighBits_eq : s'.fHighBits = s.fHighBits
  mem_iff : ∀ x, x ∈ s'.values ↔ x ∈ s.values ∨ x ∈ lows

theorem setSegment_spec (h : s.WellFormed) {index : BitVec 32}
    (hhigh : s.fHighBits = highHalf index) :
    (∀ s', setSegment s index.toNat = some s' → Extended s [lowHalf index] s') ∧
    ((∃ x < 2 ^ 16, x ∉ s.values ∧ x ≠ lowHalf index) →
      (setSegment s index.toNat).isSome) := by
  have hindex := findIndex_spec h.sorted h.ne_nil (lowHalf index)
  have hpos : 0 < s.values.length := List.length_pos_iff.2 h.ne_nil
  have hlow := lowHalf_lt index
  unfold setSegment
  change (∀ s', _ = some s' → _) ∧ (_ → _)
  dsimp only
  rw [show index.toNat % 2 ^ 16 = lowHalf index from rfl]
  revert hindex
  generalize findIndex s.values (lowHalf index) 0 0 = t
  intro hindex
  have hthere : (t < s.populationCount ∧ index.toNat = valueAtSegment s t) ↔
      lowHalf index ∈ s.values := by
    rw [hindex.mem_iff h.sorted]
    refine and_congr_right fun ht => ?_
    have hmem : s.values.getD t 0 < 2 ^ 16 :=
      h.values_lt _ (List.mem_of_mem_drop (getD_mem_drop ht))
    rw [valueAtSegment, if_pos ht, highBits_or hmem, toNat_eq index, hhigh]
    omega
  by_cases hmem : lowHalf index ∈ s.values
  · rw [if_pos (hthere.2 hmem)]
    refine ⟨fun s' hs' => ?_, fun _ => rfl⟩
    obtain rfl := Option.some.inj hs'
    refine ⟨h, rfl, fun x => ⟨.inl, ?_⟩⟩
    rintro (hx | hx)
    · exact hx
    · rwa [List.mem_singleton.1 hx]
  · obtain ⟨hsorted, hmemIff, hlength⟩ := insertIdx_spec h.sorted hindex hmem
    rw [if_neg (hthere.not.2 hmem)]
    -- only a full array is grown
    have hgrown : ∃ size, (if s.fSize = s.populationCount then
        growSegment s s.fSize (s.populationCount + 1) else s) = { s with fSize := size } ∧
        size ≤ kSegmentMask ∧ (s.values.length < kSegmentMask → s.values.length < size) := by
      by_cases hfull : s.fSize = s.populationCount
      · refine ⟨grownSize (s.fSize + 1), ?_, grownSize_le ?_, fun hlt => ?_⟩
        · rw [if_pos hfull, ← hfull]
          exact growSegment_full (hpos.trans_le h.length_le)
        · have := hpos.trans_le h.length_le
          omega
        · have hle : s.values.length + 1 ≤ grownSize (s.fSize + 1) :=
            le_grownSize (Nat.succ_le_succ h.length_le) hlt
          omega
      · refine ⟨s.fSize, by rw [if_neg hfull], h.fSize_le, fun _ => ?_⟩
        exact lt_of_le_of_ne h.length_le fun heq => hfull heq.symm
    obtain ⟨size, hsize, hmask, hfits⟩ := hgrown
    rw [hsize]
    change (∀ s', (if s.values.length < size then
        some (⟨size, s.fHighBits, s.values.insertIdx t (lowHalf index)⟩ : Segment) else none) =
        some s' → _) ∧ (_ → (if s.values.length < size then
        some (⟨size, s.fHighBits, s.values.insertIdx t (lowHalf index)⟩ : Segment)
        else none).isSome = true)
    have hvalues : ∀ x ∈ s.values.insertIdx t (lowHalf index), x < 2 ^ 16 := by
      intro x hx
      rcases (hmemIff x).1 hx with rfl | hx
      · exact hlow
      · exact h.values_lt x hx
    refine ⟨fun s' hs' => ?_, ?_⟩
    · have hroom : s.values.length < size := by
        by_contra hnot
        rw [if_neg hnot] at hs'
        exact absurd hs' (by simp)
      rw [if_pos hroom] at hs'
      obtain rfl := Option.some.inj hs'
      refine ⟨⟨hsorted, ?_, hvalues, ?_, hmask⟩, rfl, fun x => ?_⟩
      · exact List.ne_nil_of_mem ((hmemIff _).2 (.inl rfl))
      · dsimp only
        rw [hlength]
        exact hroom
      · rw [List.mem_singleton, or_comm]
        exact hmemIff x
    · rintro ⟨x, hx, hnot, hne⟩
      have hle := length_le_of_not_mem hsorted hvalues hx
        fun hxMem => ((hmemIff x).1 hxMem).elim hne hnot
      rw [hlength] at hle
      rw [if_pos (hfits hle)]
      rfl

theorem Bits.wellFormed (bits : Bits) (high : ℕ) {size : ℕ} (hsize : bits.values.length ≤ size)
    (hmask : size ≤ kSegmentMask) : (⟨size, high, bits.values⟩ : Segment).WellFormed where
  sorted := bits.sorted
  ne_nil := List.length_pos_iff.1 bits.count_pos
  values_lt := bits.values_lt
  length_le := hsize
  fSize_le := hmask

/-- An array is merged into a segment in place. -/
theorem orSegment_bits (h : s.WellFormed) (bits : Bits) :
    (∀ s', (orSegment s ⟨bits.values.length, s.fHighBits, bits.values⟩ s true).map
        (fun r => r.1) = some s' → Extended s bits.values s') ∧
    ((∃ x < 2 ^ 16, x ∉ s.values ∧ x ∉ bits.values) →
      ((orSegment s ⟨bits.values.length, s.fHighBits, bits.values⟩ s true).map
        fun r => r.1).isSome) := by
  have hinput := bits.wellFormed s.fHighBits le_rfl bits.count_le
  obtain ⟨hsome, htotal⟩ := orSegment_spec h hinput rfl s true
  refine ⟨fun s' hs' => ?_, ?_⟩
  · obtain ⟨r, hr, rfl⟩ := Option.map_eq_some_iff.1 hs'
    have hresult := hsome r hr
    unfold OrResult at hresult
    split at hresult
    next hsub =>
      obtain rfl := hresult
      refine ⟨h, rfl, fun x => ⟨.inl, ?_⟩⟩
      rintro (hx | hx)
      · exact hx
      · exact hsub x hx
    next =>
      obtain ⟨-, hwell, hhigh, hmem⟩ := hresult
      exact ⟨hwell, hhigh, fun x => (hmem x).trans mem_union⟩
  · rintro ⟨x, hx, hnot, hnotBits⟩
    rw [Option.isSome_map]
    refine htotal ?_
    have hsub : union s ⟨bits.values.length, s.fHighBits, bits.values⟩ ⊆
        (Finset.range (2 ^ 16)).erase x := by
      intro y hy
      refine Finset.mem_erase.2 ⟨?_, Finset.mem_range.2 ?_⟩
      · rintro rfl
        exact (mem_union.1 hy).elim hnot hnotBits
      · exact (mem_union.1 hy).elim (h.values_lt y) (bits.values_lt y)
    refine (Finset.card_le_card hsub).trans_eq ?_
    rw [Finset.card_erase_of_mem (Finset.mem_range.2 hx), Finset.card_range]
    rfl

theorem place_extended (h : Ordered v) {s' : Segment} (hs' : s'.WellFormed)
    {lows : List ℕ} (hhigh : s'.fHighBits = high)
    (hmem : ∀ x, x ∈ s'.values ↔ Member v high x ∨ x ∈ lows) :
    Ordered (place s' v) ∧ ∀ h l, Member (place s' v) h l ↔
      Member v h l ∨ h = high ∧ l ∈ lows := by
  refine ⟨h.place hs', fun k l => ?_⟩
  rw [member_place, hhigh]
  split
  next heq =>
    subst heq
    rw [hmem]
    simp
  next hne => simp [hne]

/-- What setting bits of one upper half gives: it adds them, and it succeeds while the segment lacks
a value. -/
structure Adds (high : ℕ) (lows : List ℕ) (v : List Segment) (result : Option (List Segment)) :
    Prop where
  some : ∀ v' ∈ result, Ordered v' ∧
    ∀ k l, Member v' k l ↔ Member v k l ∨ k = high ∧ l ∈ lows
  total : (∃ l < 2 ^ 16, ¬ Member v high l ∧ l ∉ lows) → result.isSome

theorem set_adds (h : Ordered v) (index : BitVec 32) :
    Adds (highHalf index) [lowHalf index] v (set index v) := by
  have hnewWell : (⟨4, highHalf index, [lowHalf index]⟩ : Segment).WellFormed :=
    { sorted := List.pairwise_singleton ..
      ne_nil := List.cons_ne_nil _ _
      values_lt := fun x hx => by
        rw [List.mem_singleton.1 hx]
        exact lowHalf_lt index
      length_le := Nat.le_of_ble_eq_true rfl
      fSize_le := Nat.le_of_ble_eq_true rfl }
  have heq := withSegment_eq h.sorted (highHalf index) (fun s => setSegment s index.toNat)
    (some ⟨4, highHalf index, [lowHalf index]⟩)
    (fun s hs hhigh s' hs' =>
      ((setSegment_spec (h.wellFormed s hs) hhigh).1 s' hs').fHighBits_eq.trans hhigh)
    (fun s hs => by rw [← Option.some.inj hs])
  change Adds _ _ v (withSegment (highHalf index) (fun s => setSegment s index.toNat)
    (some ⟨4, highHalf index, [lowHalf index]⟩) v)
  rw [heq]
  cases hfind : findSegment (highHalf index) v with
  | none =>
    refine ⟨fun v' hv' => ?_, fun _ => rfl⟩
    obtain rfl := Option.some.inj hv'
    refine place_extended h hnewWell rfl fun x => ?_
    simp [h.not_member hfind]
  | some s =>
    obtain ⟨hs, hhigh⟩ := (findSegment_eq_some_iff h.sorted).1 hfind
    obtain ⟨hsome, htotal⟩ := setSegment_spec (h.wellFormed s hs) hhigh
    refine ⟨fun v' hv' => ?_, ?_⟩
    · obtain ⟨s', hs', rfl⟩ := Option.map_eq_some_iff.1 hv'
      have hext := hsome s' hs'
      refine place_extended h hext.wellFormed (hext.fHighBits_eq.trans hhigh) fun x => ?_
      rw [h.member_iff hfind]
      exact hext.mem_iff x
    · rintro ⟨l, hl, hnot, hnotLow⟩
      rw [Option.isSome_map]
      rw [h.member_iff hfind] at hnot
      exact htotal ⟨l, hl, hnot, fun hlow => hnotLow (List.mem_singleton.2 hlow)⟩

theorem orBits_adds (h : Ordered v) (high : ℕ) (bits : Bits) :
    Adds high bits.values v (orBits high bits.values v) := by
  unfold orBits
  cases hfind : findSegment high v with
  | none =>
    have hmod : bits.values.length % 2 ^ 16 = bits.values.length :=
      Nat.mod_eq_of_lt (lt_of_le_of_lt bits.count_le (by decide))
    have hwrite : writeValues bits.values ⟨bits.values.length % 2 ^ 16, high, []⟩ =
        some ⟨bits.values.length, high, bits.values⟩ := by
      rw [hmod]
      exact if_pos le_rfl
    have heq := withSegment_eq h.sorted high
      (fun s => writeValues bits.values (growSegment s bits.values.length 0))
      (writeValues bits.values ⟨bits.values.length % 2 ^ 16, high, []⟩)
      (fun s hs hhigh => absurd hhigh ((findSegment_eq_none_iff h.sorted).1 hfind s hs))
      (fun s hs => by
        rw [hwrite] at hs
        rw [← Option.some.inj hs])
    dsimp only
    rw [addSegment, heq, hfind, hwrite]
    refine ⟨fun v' hv' => ?_, fun _ => rfl⟩
    obtain rfl := Option.some.inj hv'
    refine place_extended h (bits.wellFormed _ le_rfl bits.count_le) rfl fun x => ?_
    simp [h.not_member hfind]
  | some s =>
    obtain ⟨hs, rfl⟩ := (findSegment_eq_some_iff h.sorted).1 hfind
    have heq := withSegment_eq h.sorted s.fHighBits
      (fun a => (orSegment a ⟨bits.values.length, s.fHighBits, bits.values⟩ a true).map
        fun r => r.1)
      none
      (fun a ha hhigh a' ha' => by
        rw [← hhigh] at ha' ⊢
        exact ((orSegment_bits (h.wellFormed a ha) bits).1 a' ha').fHighBits_eq)
      (fun s hs => absurd hs (by simp))
    obtain ⟨hsome, htotal⟩ := orSegment_bits (h.wellFormed s hs) bits
    dsimp only
    rw [heq, hfind, Option.elim_some]
    refine ⟨fun v' hv' => ?_, ?_⟩
    · obtain ⟨s', hs', rfl⟩ := Option.map_eq_some_iff.1 hv'
      have hext := hsome s' hs'
      refine place_extended h hext.wellFormed hext.fHighBits_eq fun x => ?_
      rw [h.member_iff hfind]
      exact hext.mem_iff x
    · rintro ⟨l, hl, hnot, hnotBits⟩
      rw [Option.isSome_map]
      rw [h.member_iff hfind] at hnot
      exact htotal ⟨l, hl, hnot, hnotBits⟩

theorem valueAt_iff (h : Ordered v) (index : BitVec 32) :
    valueAt v index = true ↔ Member v (highHalf index) (lowHalf index) := by
  unfold valueAt
  cases hfind : findSegment (highHalf index) v with
  | none =>
    exact ⟨fun hfalse => absurd hfalse Bool.false_ne_true, fun hmem =>
      absurd hmem (h.not_member hfind _)⟩
  | some s =>
    have hs := ((findSegment_eq_some_iff h.sorted).1 hfind).1
    rw [h.member_iff hfind, getSegment_iff (h.wellFormed s hs)]
    rfl

/-- In a vector every upper half lacks a lower half. -/
theorem Ordered.exists_not_member (h : Ordered v) (high : ℕ) :
    ∃ l < 2 ^ 16, ¬ Member v high l := by
  cases hfind : findSegment high v with
  | none => exact ⟨0, by decide, h.not_member hfind 0⟩
  | some s =>
    have hs := ((findSegment_eq_some_iff h.sorted).1 hfind).1
    obtain ⟨l, hl, hnot⟩ := (h.wellFormed s hs).exists_not_mem
    exact ⟨l, hl, (h.member_iff hfind l).not.2 hnot⟩

namespace Setting

theorem exec_adds (setting : Setting) (h : Ordered v) :
    Adds setting.high setting.lows v (setting.exec v) := by
  cases setting with
  | set index => exact set_adds h index
  | orSegment index bits => exact orBits_adds h (highHalf index) bits

/-- The members after a sequence of settings. -/
theorem run_member (settings : List Setting) (h : Ordered v) :
    ∀ v', run settings v = some v' → Ordered v' ∧ ∀ k l, Member v' k l ↔
      Member v k l ∨ ∃ setting ∈ settings, k = setting.high ∧ l ∈ setting.lows := by
  induction settings generalizing v with
  | nil =>
    intro v' hv'
    obtain rfl := Option.some.inj hv'
    exact ⟨h, fun k l => by simp⟩
  | cons setting settings ih =>
    intro v' hv'
    obtain ⟨v₁, hexec, hrun⟩ := Option.bind_eq_some_iff.1 hv'
    obtain ⟨h₁, hmem₁⟩ := (setting.exec_adds h).some v₁ hexec
    obtain ⟨h', hmem'⟩ := ih h₁ v' hrun
    refine ⟨h', fun k l => ?_⟩
    rw [hmem', hmem₁, or_assoc, List.exists_mem_cons_iff]

/-- Settings that leave a lower half of every upper half out succeed. -/
theorem run_isSome (settings : List Setting) (h : Ordered v)
    (hroom : ∀ k < 2 ^ 16, ∃ l < 2 ^ 16, ¬ Member v k l ∧
      ∀ setting ∈ settings, ¬ (k = setting.high ∧ l ∈ setting.lows)) :
    (run settings v).isSome := by
  induction settings generalizing v with
  | nil => rfl
  | cons setting settings ih =>
    have hhigh : setting.high < 2 ^ 16 := by cases setting <;> exact highHalf_lt _
    have hadds := setting.exec_adds h
    have hsome : (setting.exec v).isSome := by
      obtain ⟨l, hl, hnot, hnone⟩ := hroom setting.high hhigh
      exact hadds.total ⟨l, hl, hnot, fun hmem => hnone setting (List.mem_cons_self ..) ⟨rfl, hmem⟩⟩
    obtain ⟨v₁, hexec⟩ := Option.isSome_iff_exists.1 hsome
    obtain ⟨h₁, hmem₁⟩ := hadds.some v₁ hexec
    rw [run, hexec, Option.bind_some]
    refine ih h₁ fun k hk => ?_
    obtain ⟨l, hl, hnot, hnone⟩ := hroom k hk
    refine ⟨l, hl, ?_, fun q hq => hnone q (List.mem_cons_of_mem _ hq)⟩
    rw [hmem₁, not_or]
    exact ⟨hnot, hnone setting (List.mem_cons_self ..)⟩

theorem ordered_nil : Ordered ([] : List Segment) :=
  ⟨List.Pairwise.nil, fun _ hs => absurd hs List.not_mem_nil⟩

/-- A run that sets all indices of an upper half writes behind an array. -/
theorem run_eq_none (settings : List Setting) {high : ℕ} (hhigh : high < 2 ^ 16)
    (hall : ∀ index, highHalf index = high → ∃ setting ∈ settings, setting.Sets index) :
    run settings [] = none := by
  refine Option.eq_none_iff_forall_ne_some.2 fun v' hrun => ?_
  obtain ⟨h', hmem⟩ := run_member settings ordered_nil v' hrun
  obtain ⟨l, hl, hnot⟩ := h'.exists_not_member high
  obtain ⟨index, hindex, hlow⟩ := exists_index hhigh hl
  obtain ⟨setting, hsetting, hsets⟩ := hall index hindex
  refine hnot ((hmem high l).2 (.inr ⟨setting, hsetting, ?_⟩))
  rwa [Sets, hindex, hlow] at hsets

/-- Settings fit into the arrays, and all of them are members, exactly as long as no upper half
gets all of its lower halves. -/
theorem run_members_iff (settings : List Setting) :
    (∃ v, run settings [] = some v ∧
      ∀ index, (∃ setting ∈ settings, setting.Sets index) → valueAt v index = true) ↔
    ∀ high < 2 ^ 16, ∃ index, highHalf index = high ∧
      ∀ setting ∈ settings, ¬ setting.Sets index := by
  constructor
  · rintro ⟨v, hrun, -⟩ high hhigh
    by_contra hnone
    have hall : ∀ index, highHalf index = high → ∃ setting ∈ settings, setting.Sets index := by
      intro index hindex
      by_contra hnot
      exact hnone ⟨index, hindex, fun setting hmem hsets => hnot ⟨setting, hmem, hsets⟩⟩
    rw [run_eq_none settings hhigh hall] at hrun
    exact absurd hrun (by simp)
  · intro hroom
    have hsome : (run settings []).isSome := by
      refine run_isSome settings ordered_nil fun k hk => ?_
      obtain ⟨index, rfl, hnone⟩ := hroom k hk
      refine ⟨lowHalf index, lowHalf_lt index, ?_, hnone⟩
      rintro ⟨s, hs, -⟩
      exact List.not_mem_nil hs
    obtain ⟨v, hrun⟩ := Option.isSome_iff_exists.1 hsome
    obtain ⟨h, hmem⟩ := run_member settings ordered_nil v hrun
    refine ⟨v, hrun, ?_⟩
    rintro index ⟨setting, hsetting, hsets⟩
    exact (valueAt_iff h index).2 ((hmem _ _).2 (.inr ⟨setting, hsetting, hsets⟩))

/-- The indices from 0 to 65535, set one after the other, do not fit. -/
theorem run_fullSegment :
    ¬ ∃ v, run ((List.range (2 ^ 16)).map fun low => set (BitVec.ofNat 32 low)) [] = some v ∧
      ∀ index, (∃ setting ∈ (List.range (2 ^ 16)).map fun low => set (BitVec.ofNat 32 low),
        setting.Sets index) → valueAt v index = true := by
  rintro ⟨v, hrun, -⟩
  have hall : ∀ index, highHalf index = 0 →
      ∃ setting ∈ (List.range (2 ^ 16)).map fun low => set (BitVec.ofNat 32 low),
        setting.Sets index := by
    intro index hindex
    refine ⟨set (BitVec.ofNat 32 (lowHalf index)),
      List.mem_map.2 ⟨lowHalf index, List.mem_range.2 (lowHalf_lt index), rfl⟩, ?_⟩
    have hval : BitVec.ofNat 32 (lowHalf index) = index := by
      have hsplit := toNat_eq index
      rw [hindex, Nat.zero_mul, Nat.zero_add] at hsplit
      rw [← hsplit, BitVec.ofNat_toNat, BitVec.setWidth_eq]
    rw [hval]
    exact ⟨rfl, List.mem_singleton.2 rfl⟩
  rw [run_eq_none _ (by decide) hall] at hrun
  exact absurd hrun (by simp)

end Setting

end OMR.Compiler.SparseBitVector
