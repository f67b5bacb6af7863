import OMR.GC.CompactForwarding

/-!
# The hints agree with the walk

The 43 low bits of an entry are the mark bits, and above them each hint has its 7 bits. That holds
as long as every object is recorded with a compressed offset below 43; a page has 64 of them.
-/

namespace OMR.GC.Compact

open OMR.Lib

/-- A round of the loop takes the lowest bit away. -/
theorem countBitsLoop_eq (fuel : ℕ) (x : BitVec 64) (count : ℕ) (h : popCount x ≤ fuel) :
    countBitsLoop fuel x count = count + popCount x := by
  have hzero : popCount (0 : BitVec 64) = 0 := by decide
  induction fuel generalizing x count with
  | zero => rw [countBitsLoop, Nat.le_zero.1 h, Nat.add_zero]
  | succ fuel ih =>
    rw [countBitsLoop]
    split
    next hx =>
      have hone := popCount_and_sub_one hx
      rw [ih _ _ (by omega)]
      omega
    next hx => rw [not_not.1 hx, hzero, Nat.add_zero]

theorem countBits_eq (x : BitVec 64) : countBits x = popCount x := by
  have hle : popCount x ≤ 64 := by
    rw [popCount_eq_card]
    exact (Finset.card_filter_le _ _).trans_eq (Finset.card_range 64)
  rw [countBits, countBitsLoop_eq 64 x 0 hle, Nat.zero_add]

/-- The hint that `setHint` stores for a distance in bytes. -/
def hintValue (distance : ℕ) : ℕ :=
  if distance / 8 ≥ maxValue then invalidValue else distance / 8

theorem hintValue_lt (distance : ℕ) : hintValue distance < maxValue := by
  unfold hintValue
  split
  · decide
  · omega

theorem hintValue_pos {distance : ℕ} (h : 16 ≤ distance) : hintValue distance ≠ 0 := by
  unfold hintValue
  split
  · decide
  · omega

theorem eight_mul_hintValue {distance : ℕ} (h : 8 ∣ distance)
    (hvalid : hintValue distance ≠ invalidValue) : 8 * hintValue distance = distance := by
  have hlt : ¬ distance / 8 ≥ maxValue := fun hge => hvalid (if_pos hge)
  rw [hintValue, if_neg hlt, Nat.mul_div_cancel' h]

namespace CompactTableEntry

variable {entry : CompactTableEntry}

theorem getAddr_initializeEntry {addr : ℕ} (h : 4 ∣ addr) :
    (initializeEntry addr).getAddr = addr := by
  obtain ⟨k, rfl⟩ := h
  have hor : 4 * k ||| 3 = 4 * k + 3 :=
    (Nat.two_pow_add_eq_or_of_lt (i := 2) (b := 3) (by decide) k).symm
  have hand : (4 * k + 3) &&& 3 = 3 := by
    rw [show (3 : ℕ) = 2 ^ 2 - 1 from rfl, Nat.and_two_pow_sub_one_eq_mod]
    omega
  rw [getAddr, initializeEntry, hor, hand, if_neg (not_not.2 rfl), Nat.add_sub_cancel]

theorem getLsbD_setBit {offset i : ℕ} (hi : i < 64) :
    (entry.setBit offset).bits.getLsbD i = (entry.bits.getLsbD i || decide (i = offset)) := by
  rw [setBit, BitVec.getLsbD_or, getLsbD_one_shiftLeft hi]

theorem getHintShiftCount_eq {index : ℕ} (h : index < maxHints) :
    getHintShiftCount index = some (maxOffset + index * hintSize) := by
  refine if_pos ?_
  unfold maxHints at h
  unfold maxOffset hintSize
  omega

/-- A hint is written over its own bits. -/
theorem setHint_eq {index distance : ℕ} (h : index < maxHints) (hpos : 16 ≤ distance) :
    entry.setHint index (distance / 8) = some { entry with
      bits := entry.bits |||
        BitVec.ofNat 64 (hintValue distance) <<< (maxOffset + index * hintSize) } := by
  rw [setHint, if_pos ⟨h, by omega⟩, getHintShiftCount_eq h]
  rfl

theorem getLsbD_hint {value shift i : ℕ} (hi : i < 64) (hvalue : value < maxValue) :
    (BitVec.ofNat 64 value <<< shift).getLsbD i =
      (decide (shift ≤ i ∧ i < shift + hintSize) && value.testBit (i - shift)) := by
  rw [BitVec.getLsbD_shiftLeft, BitVec.getLsbD_ofNat]
  rcases Nat.lt_or_ge i shift with hlt | hge
  · rw [decide_eq_true hlt, decide_eq_false (by omega : ¬ (shift ≤ i ∧ i < shift + hintSize))]
    simp
  · rcases Nat.lt_or_ge i (shift + hintSize) with hin | hout
    · rw [decide_eq_true hi, decide_eq_false (by omega), decide_eq_true (by omega),
        decide_eq_true ⟨hge, hin⟩]
      simp
    · have hclear : value.testBit (i - shift) = false := by
        refine Nat.testBit_lt_two_pow (hvalue.trans_le ?_)
        calc maxValue = 2 ^ hintSize := rfl
          _ ≤ 2 ^ (i - shift) := Nat.pow_le_pow_right (by decide) (by omega)
      rw [hclear]
      simp

/-- A hint that fills its bits is read back. -/
theorem getHint_eq {index value : ℕ} (h : index < maxHints) (hpos : value ≠ 0)
    (hlt : value < maxValue)
    (hbits : ∀ b < hintSize,
      entry.bits.getLsbD (maxOffset + index * hintSize + b) = value.testBit b) :
    entry.getHint index = some value := by
  have hword : entry.bits >>> (maxOffset + index * hintSize) &&& makeMask hintSize =
      BitVec.ofNat 64 value := by
    refine BitVec.eq_of_getLsbD_eq fun i hi => ?_
    rw [BitVec.getLsbD_and, BitVec.getLsbD_ushiftRight, makeMask,
      getLsbD_one_shiftLeft_sub_one (by decide), BitVec.getLsbD_ofNat, decide_eq_true hi,
      Bool.true_and]
    rcases Nat.lt_or_ge i hintSize with hin | hout
    · rw [hbits i hin, decide_eq_true hin, Bool.and_true]
    · have hclear : value.testBit i = false := by
        refine Nat.testBit_lt_two_pow (hlt.trans_le ?_)
        calc maxValue = 2 ^ hintSize := rfl
          _ ≤ 2 ^ i := Nat.pow_le_pow_right (by decide) hout
      rw [hclear, decide_eq_false (by omega), Bool.and_false]
  have htoNat : (BitVec.ofNat 64 value).toNat = value := by
    rw [BitVec.toNat_ofNat, Nat.mod_eq_of_lt (hlt.trans (by decide))]
  rw [getHint, if_pos h, getHintShiftCount_eq h, Option.bind_some, hword, htoNat]
  exact if_pos ⟨hpos, hlt⟩

end CompactTableEntry

namespace CompactScheme

open CompactTableEntry

variable {scheme : CompactScheme} {size : ℕ → ℕ} {page first : ℕ} {s : SaveState}
variable {done objects : List (ℕ × ℕ)}

/-- The entry after the objects of a page up to some point, with the destination of the first
one. -/
structure Recorded (scheme : CompactScheme) (page first : ℕ) (done : List (ℕ × ℕ))
    (s : SaveState) : Prop where
  page_eq : s.page = some page
  counter_eq : s.counter = done.length
  addr : s.entry.getAddr = first
  mark : ∀ j < maxOffset, s.entry.bits.getLsbD j =
    done.any fun o => decide (j = scheme.compressedPageOffset o.1)
  hint : ∀ k < maxHints, ∀ b < hintSize,
    s.entry.bits.getLsbD (maxOffset + k * hintSize + b) =
      done[k + 1]?.any fun o => (hintValue (o.2 - first)).testBit b

/-- A page begins with its first object. -/
theorem recorded_turnPage {o : ℕ × ℕ} (hs : s.page ≠ some (scheme.pageIndex o.1))
    (hdvd : 4 ∣ o.2) :
    Recorded scheme (scheme.pageIndex o.1) o.2 [] (scheme.turnPage s o.1 o.2) := by
  rw [turnPage, if_pos hs]
  exact
    { page_eq := rfl
      counter_eq := rfl
      addr := getAddr_initializeEntry hdvd
      mark := fun j hj => BitVec.getLsbD_zero
      hint := fun k hk b hb => BitVec.getLsbD_zero }

theorem turnPage_eq {objectPtr forwardingPtr : ℕ}
    (h : s.page = some (scheme.pageIndex objectPtr)) :
    scheme.turnPage s objectPtr forwardingPtr = s :=
  if_neg (not_not.2 h)

theorem saveForwardingPtr_turnPage (objectPtr forwardingPtr : ℕ) :
    scheme.saveForwardingPtr (scheme.turnPage s objectPtr forwardingPtr) objectPtr forwardingPtr =
      scheme.saveForwardingPtr s objectPtr forwardingPtr := by
  have hpage : (scheme.turnPage s objectPtr forwardingPtr).page =
      some (scheme.pageIndex objectPtr) := by
    unfold turnPage
    split
    · rfl
    next h => exact not_not.1 h
  unfold saveForwardingPtr
  rw [turnPage_eq hpage]

/-- An object with a mark bit of its own is recorded next to the hints. -/
theorem Recorded.saveForwardingPtr (h : Recorded scheme page first done s) {o : ℕ × ℕ}
    (hpage : scheme.pageIndex o.1 = page) (hoffset : scheme.compressedPageOffset o.1 < maxOffset)
    (hdistance : done ≠ [] → 16 ≤ o.2 - first) :
    ∃ s', scheme.saveForwardingPtr s o.1 o.2 = some s' ∧
      Recorded scheme page first (done ++ [o]) s' := by
  have hturn : scheme.turnPage s o.1 o.2 = s := turnPage_eq (by rw [h.page_eq, hpage])
  have haddr : (s.entry.setBit (scheme.compressedPageOffset o.1)).getAddr = first := h.addr
  have hmark : ∀ j < maxOffset,
      (s.entry.setBit (scheme.compressedPageOffset o.1)).bits.getLsbD j =
        (done ++ [o]).any fun o => decide (j = scheme.compressedPageOffset o.1) := by
    intro j hj
    rw [getLsbD_setBit (hj.trans (by decide)), h.mark j hj, List.any_append]
    simp
  -- the new mark bit is below every hint
  have hfield : ∀ k < maxHints, ∀ b < hintSize,
      (s.entry.setBit (scheme.compressedPageOffset o.1)).bits.getLsbD
        (maxOffset + k * hintSize + b) =
        done[k + 1]?.any fun o => (hintValue (o.2 - first)).testBit b := by
    intro k hk b hb
    have hin : maxOffset + k * hintSize + b < 64 := by
      unfold maxHints at hk
      unfold hintSize at *
      unfold maxOffset
      omega
    rw [getLsbD_setBit hin, h.hint k hk b hb, decide_eq_false (by omega), Bool.or_false]
  have hlen : (done ++ [o]).length = s.counter + 1 := by rw [List.length_append, h.counter_eq]; rfl
  unfold CompactScheme.saveForwardingPtr
  rw [hturn]
  dsimp only
  split
  next hcounter =>
    have hne : done ≠ [] := by
      rintro rfl
      exact absurd hcounter.1 (by rw [h.counter_eq]; decide)
    have hindex : s.counter - 1 < maxHints := by omega
    rw [haddr, setHint_eq hindex (hdistance hne)]
    refine ⟨_, rfl, ?_⟩
    exact
      { page_eq := h.page_eq
        counter_eq := hlen.symm
        addr := h.addr
        mark := by
          intro j hj
          have hbelow : ¬ (maxOffset + (s.counter - 1) * hintSize ≤ j ∧
              j < maxOffset + (s.counter - 1) * hintSize + hintSize) := by omega
          rw [BitVec.getLsbD_or, hmark j hj, getLsbD_hint (hj.trans (by decide)) (hintValue_lt _),
            decide_eq_false hbelow, Bool.false_and, Bool.or_false]
        hint := by
          intro k hk b hb
          have hin : maxOffset + k * hintSize + b < 64 := by
            unfold maxHints at hk
            unfold hintSize at *
            unfold maxOffset
            omega
          rw [BitVec.getLsbD_or, hfield k hk b hb, getLsbD_hint hin (hintValue_lt _)]
          have hcount := h.counter_eq
          rcases Nat.lt_trichotomy (k + 1) done.length with hlt | heq | hgt
          · -- an earlier hint
            have hother : ¬ (maxOffset + (s.counter - 1) * hintSize ≤ maxOffset + k * hintSize + b ∧
                maxOffset + k * hintSize + b <
                  maxOffset + (s.counter - 1) * hintSize + hintSize) := by
              unfold hintSize at *
              omega
            rw [List.getElem?_append_left hlt, decide_eq_false hother, Bool.false_and,
              Bool.or_false]
          · -- the hint of this object
            have hthis : s.counter - 1 = k := by omega
            rw [hthis, decide_eq_true ⟨by omega, by omega⟩, Bool.true_and,
              List.getElem?_eq_none (by omega), heq, List.getElem?_concat_length,
              Nat.add_sub_cancel_left]
            rfl
          · -- a hint that is still empty
            have hother : ¬ (maxOffset + (s.counter - 1) * hintSize ≤ maxOffset + k * hintSize + b ∧
                maxOffset + k * hintSize + b <
                  maxOffset + (s.counter - 1) * hintSize + hintSize) := by
              unfold hintSize at *
              omega
            rw [List.getElem?_eq_none (by omega), decide_eq_false hother,
              List.getElem?_eq_none (by rw [List.length_append]; simp; omega)]
            rfl }
  next hcounter =>
    refine ⟨_, rfl, ?_⟩
    exact
      { page_eq := h.page_eq
        counter_eq := hlen.symm
        addr := h.addr
        mark := hmark
        hint := by
          intro k hk b hb
          have hcount := h.counter_eq
          rw [hfield k hk b hb]
          rcases Nat.lt_or_ge (k + 1) done.length with hlt | hge
          · rw [List.getElem?_append_left hlt]
          · have hbeyond : done.length + 1 ≤ k + 1 := by omega
            rw [List.getElem?_eq_none hge,
              List.getElem?_eq_none (by rw [List.length_append]; exact hbeyond)] }

theorem Recorded.saveForwardingPtrs (rest : List (ℕ × ℕ))
    (h : Recorded scheme page first done s)
    (hpage : ∀ o ∈ rest, scheme.pageIndex o.1 = page)
    (hoffset : ∀ o ∈ rest, scheme.compressedPageOffset o.1 < maxOffset)
    (hne : done ≠ []) (hdistance : ∀ o ∈ rest, 16 ≤ o.2 - first) :
    ∃ s', scheme.saveForwardingPtrs rest s = some s' ∧
      Recorded scheme page first (done ++ rest) s' := by
  induction rest generalizing done s with
  | nil => exact ⟨s, rfl, by rwa [List.append_nil]⟩
  | cons o rest ih =>
    obtain ⟨s₁, hsave, h₁⟩ := h.saveForwardingPtr (hpage o (List.mem_cons_self ..))
      (hoffset o (List.mem_cons_self ..)) fun _ => hdistance o (List.mem_cons_self ..)
    obtain ⟨s', hrun, h'⟩ := ih h₁ (fun o ho => hpage o (List.mem_cons_of_mem _ ho))
      (fun o ho => hoffset o (List.mem_cons_of_mem _ ho)) (by simp)
      fun o ho => hdistance o (List.mem_cons_of_mem _ ho)
    refine ⟨s', ?_, by rwa [List.append_assoc] at h'⟩
    rw [CompactScheme.saveForwardingPtrs, hsave, Option.bind_some, hrun]

namespace PageObjects

variable {getConsumedSizeInBytesWithHeader : ℕ → ℕ}

/-- Objects at least 16 bytes apart have different compressed offsets. -/
theorem offset_lt (h : PageObjects scheme getConsumedSizeInBytesWithHeader page objects) :
    objects.Pairwise fun a b =>
      scheme.compressedPageOffset a.1 < scheme.compressedPageOffset b.1 := by
  refine h.apart.imp_of_mem fun {a b} ha hb hab => ?_
  have hpage := (h.onPage a ha).trans (h.onPage b hb).symm
  have hbase := h.inHeap a ha
  unfold compressedPageOffset pageOffset bytesPerCompressedBit
  unfold pageIndex at hpage
  unfold sizeofPage at *
  omega

/-- The walk goes from one destination to the next. -/
theorem walkObjects_eq (h : PageObjects scheme getConsumedSizeInBytesWithHeader page objects)
    (n : ℕ) : ∀ (k : ℕ) (hk : k < objects.length) (hn : k + n < objects.length),
      walkObjects getConsumedSizeInBytesWithHeader n objects[k].2 = objects[k + n].2 := by
  induction n with
  | zero => exact fun k hk hn => rfl
  | succ n ih =>
    intro k hk hn
    have hnext : objects[k + 1].2 =
        objects[k].2 + getConsumedSizeInBytesWithHeader objects[k].2 :=
      List.isChain_iff_getElem.1 h.contiguous k (by omega)
    rw [walkObjects, ← hnext, ih (k + 1) (by omega) (by omega)]
    congr 2
    omega

theorem distance (h : PageObjects scheme getConsumedSizeInBytesWithHeader page objects)
    (h0 : 0 < objects.length) (i : ℕ) (hi : i < objects.length) :
    objects[0].2 + 16 * i ≤ objects[i].2 ∧ 8 ∣ objects[i].2 - objects[0].2 := by
  induction i with
  | zero => exact ⟨le_rfl, by rw [Nat.sub_self]; exact dvd_zero 8⟩
  | succ i ih =>
    obtain ⟨hle, hdvd⟩ := ih (by omega)
    have hnext : objects[i + 1].2 =
        objects[i].2 + getConsumedSizeInBytesWithHeader objects[i].2 :=
      List.isChain_iff_getElem.1 h.contiguous i hi
    have hsize := h.size_ge objects[i] (List.getElem_mem _)
    have hsize' := h.size_dvd objects[i] (List.getElem_mem _)
    constructor
    · omega
    · have hsplit : objects[i + 1].2 - objects[0].2 =
          objects[i].2 - objects[0].2 + getConsumedSizeInBytesWithHeader objects[i].2 := by omega
      rw [hsplit]
      exact dvd_add hdvd hsize'

end PageObjects

/-- Of a sorted list the elements below the one at a place are those in front of it. -/
theorem countP_lt_getElem {l : List ℕ} (h : l.Pairwise (· < ·)) (i : ℕ) (hi : i < l.length) :
    l.countP (fun a => a < l[i]) = i := by
  induction l generalizing i with
  | nil => exact absurd hi (Nat.not_lt_zero i)
  | cons a l ih =>
    rw [List.pairwise_cons] at h
    cases i with
    | zero =>
      refine List.countP_eq_zero.2 fun b hb => ?_
      rw [decide_eq_true_eq, List.getElem_cons_zero]
      rcases List.mem_cons.1 hb with rfl | hb
      · exact lt_irrefl _
      · exact (h.1 b hb).not_gt
    | succ i =>
      have hi' : i < l.length := Nat.lt_of_succ_lt_succ hi
      have hlt : a < l[i] := h.1 l[i] (List.getElem_mem hi')
      rw [List.getElem_cons_succ, List.countP_cons_of_pos (by rwa [decide_eq_true_eq]),
        ih h.2 i hi']

/-- The mark bits count the recorded objects. -/
theorem Recorded.getObjectOrdinal (h : Recorded scheme page first objects s)
    (hlt : objects.Pairwise fun a b =>
      scheme.compressedPageOffset a.1 < scheme.compressedPageOffset b.1)
    {offset : ℕ} (hoffset : offset < maxOffset) :
    s.entry.getObjectOrdinal offset =
      objects.countP fun o => scheme.compressedPageOffset o.1 < offset := by
  have hnodup : ((objects.filter fun o => scheme.compressedPageOffset o.1 < offset).map
      fun o => scheme.compressedPageOffset o.1).Nodup := by
    rw [List.nodup_iff_pairwise_ne, List.pairwise_map]
    exact (hlt.filter _).imp fun hab => hab.ne
  have hset : (Finset.range 64).filter
      (fun i => (s.entry.bits &&& makeMask offset).getLsbD i = true) =
      ((objects.filter fun o => scheme.compressedPageOffset o.1 < offset).map
        fun o => scheme.compressedPageOffset o.1).toFinset := by
    ext i
    rw [Finset.mem_filter, Finset.mem_range, BitVec.getLsbD_and, Bool.and_eq_true, makeMask,
      getLsbD_one_shiftLeft_sub_one (hoffset.trans (by decide)), decide_eq_true_eq,
      List.mem_toFinset, List.mem_map]
    constructor
    · rintro ⟨-, hbit, hi⟩
      rw [h.mark i (hi.trans hoffset), List.any_eq_true] at hbit
      obtain ⟨o, ho, hoi⟩ := hbit
      rw [decide_eq_true_eq] at hoi
      exact ⟨o, List.mem_filter.2 ⟨ho, decide_eq_true (hoi ▸ hi)⟩, hoi.symm⟩
    · rintro ⟨o, ho, rfl⟩
      obtain ⟨hmem, hin⟩ := List.mem_filter.1 ho
      have hin' := of_decide_eq_true hin
      refine ⟨(hin'.trans hoffset).trans (by decide), ?_, hin'⟩
      rw [h.mark _ (hin'.trans hoffset), List.any_eq_true]
      exact ⟨o, hmem, decide_eq_true rfl⟩
  rw [CompactTableEntry.getObjectOrdinal, countBits_eq, popCount_eq_card, hset,
    List.toFinset_card_of_nodup hnodup, List.length_map, List.countP_eq_length_filter]

/-- Each of the first objects behind the first one has its distance as its hint. -/
theorem Recorded.getHint (h : Recorded scheme page first objects s) {k : ℕ} (hk : k < maxHints)
    (hlen : k + 1 < objects.length) (hdistance : 16 ≤ objects[k + 1].2 - first) :
    s.entry.getHint k = some (hintValue (objects[k + 1].2 - first)) := by
  refine getHint_eq hk (hintValue_pos hdistance) (hintValue_lt _) fun b hb => ?_
  rw [h.hint k hk b hb, List.getElem?_eq_getElem hlen]
  rfl

section

variable {getConsumedSizeInBytesWithHeader : ℕ → ℕ}

/-- The loop over the hints ends at a place from which the walk finds the object. -/
theorem Recorded.lastValidHint (h : Recorded scheme page first objects s)
    (hobj : PageObjects scheme getConsumedSizeInBytesWithHeader page objects)
    {i : ℕ} (hi : i < objects.length) (h0 : 0 < objects.length) (hfirst : objects[0].2 = first)
    (hints : ℕ) (hle : hints ≤ maxHints) (hlt : hints < i) :
    ∃ r, CompactScheme.lastValidHint s.entry hints i first = some r ∧
      walkObjects getConsumedSizeInBytesWithHeader r.1 r.2 = objects[i].2 := by
  induction hints with
  | zero =>
    have hwalk := hobj.walkObjects_eq i 0 (by omega) (by omega)
    rw [hfirst] at hwalk
    refine ⟨(i, first), rfl, ?_⟩
    rw [hwalk]
    congr 2
    omega
  | succ k ih =>
    obtain ⟨hdist, hdvd⟩ := hobj.distance h0 (k + 1) (by omega)
    rw [hfirst] at hdist hdvd
    rw [CompactScheme.lastValidHint, h.getHint (k := k) (by omega) (by omega) (by omega),
      Option.bind_some]
    split
    next hvalid =>
      have hback := eight_mul_hintValue hdvd hvalid
      have hat : first + 8 * hintValue (objects[k + 1].2 - first) = objects[k + 1].2 := by omega
      have hwalk := hobj.walkObjects_eq (i - (k + 1)) (k + 1) (by omega) (by omega)
      rw [if_pos (by omega), hat]
      refine ⟨_, rfl, ?_⟩
      rw [hwalk]
      congr 2
      omega
    next => exact ih (by omega) (by omega)

/-- With hints an object is found where it went. -/
theorem Recorded.getForwardingPtr (h : Recorded scheme page first objects s)
    (hobj : PageObjects scheme getConsumedSizeInBytesWithHeader page objects)
    (hoffset : ∀ o ∈ objects, scheme.compressedPageOffset o.1 < maxOffset)
    {i : ℕ} (hi : i < objects.length) (h0 : 0 < objects.length) (hfirst : objects[0].2 = first)
    {compactTable : ℕ → CompactTableEntry} (hentry : compactTable page = s.entry) :
    scheme.getForwardingPtr getConsumedSizeInBytesWithHeader compactTable objects[i].1 =
      some objects[i].2 := by
  have hmem : objects[i] ∈ objects := List.getElem_mem hi
  obtain ⟨hfrom, hto⟩ := hobj.compacted _ hmem
  have haddr := h.addr
  have hpos : first ≠ 0 := by
    rw [← hfirst]
    exact (hobj.destination objects[0] (List.getElem_mem _)).1.ne'
  have hordinal : s.entry.getObjectOrdinal (scheme.compressedPageOffset objects[i].1) = i := by
    rw [h.getObjectOrdinal hobj.offset_lt (hoffset _ hmem)]
    have hsorted : (objects.map fun o => scheme.compressedPageOffset o.1).Pairwise (· < ·) :=
      List.pairwise_map.2 hobj.offset_lt
    have hcount := countP_lt_getElem hsorted i (by rwa [List.length_map])
    rwa [List.getElem_map, List.countP_map] at hcount
  have hwalk := hobj.walkObjects_eq i 0 (by omega) (by omega)
  rw [hfirst] at hwalk
  unfold CompactScheme.getForwardingPtr
  rw [if_neg (by omega), hobj.onPage _ hmem, hentry]
  dsimp only
  rw [haddr, if_neg hpos, hordinal]
  split
  next hzero =>
    subst hzero
    have hbit : s.entry.getBit (scheme.compressedPageOffset objects[0].1) ≠ 0#64 := by
      have hlt := hoffset _ hmem
      refine word_ne_zero_iff.2
        ⟨scheme.compressedPageOffset objects[0].1, hlt.trans (by decide), ?_⟩
      rw [CompactTableEntry.getBit, BitVec.getLsbD_and, h.mark _ hlt,
        getLsbD_one_shiftLeft (hlt.trans (by decide)), decide_eq_true rfl, Bool.and_true,
        List.any_eq_true]
      exact ⟨objects[0], hmem, decide_eq_true rfl⟩
    rw [if_neg hbit, hfirst]
  next hzero =>
    obtain ⟨k, rfl⟩ : ∃ k, i = k + 1 := ⟨i - 1, by omega⟩
    split
    next hle =>
      obtain ⟨hdist, hdvd⟩ := hobj.distance h0 (k + 1) hi
      rw [hfirst] at hdist hdvd
      rw [Nat.add_sub_cancel, h.getHint (by omega) hi (by omega), Option.map_some]
      congr 1
      split
      next hvalid =>
        have hback := eight_mul_hintValue hdvd hvalid
        omega
      next =>
        rw [hwalk]
        congr 2
        omega
    next hgt =>
      obtain ⟨r, hr, hfound⟩ := h.lastValidHint hobj hi h0 hfirst maxHints le_rfl (by omega)
      rw [hr, Option.map_some, hfound]

end

/-- Hints and mark bits fit together exactly as long as no object of the page is recorded at a
compressed offset from 43 on, 688 bytes into the page. -/
theorem forwardingSound_iff (getConsumedSizeInBytesWithHeader : ℕ → ℕ) (page : ℕ)
    (objects : List (ℕ × ℕ)) (s : SaveState)
    (hobj : PageObjects scheme getConsumedSizeInBytesWithHeader page objects)
    (hs : s.page ≠ some page) :
    ForwardingSound scheme getConsumedSizeInBytesWithHeader page objects s ↔
      ∀ o ∈ objects, scheme.compressedPageOffset o.1 < maxOffset := by
  constructor
  · intro hsound o ho
    -- the three hints fill the word from bit 43 on
    have hpage : scheme.compressedPageOffset o.1 < 64 := by
      unfold compressedPageOffset pageOffset sizeofPage bytesPerCompressedBit
      omega
    have h0 := hsound.apart o ho 0 (by decide)
    have h1 := hsound.apart o ho 1 (by decide)
    have h2 := hsound.apart o ho 2 (by decide)
    unfold hintSize at *
    unfold maxOffset at *
    omega
  · intro hoffset
    refine ⟨fun o ho index _ => Or.inl ((hoffset o ho).trans_le (Nat.le_add_right _ _)), ?_⟩
    cases objects with
    | nil =>
      refine ⟨s, rfl, ?_, ?_⟩
      · intro o ho
        exact absurd ho List.not_mem_nil
      · intro i hi
        exact absurd hi (Nat.not_lt_zero i)
    | cons o rest =>
      have hmem : o ∈ o :: rest := List.mem_cons_self ..
      have hturn : Recorded scheme page o.2 [] (scheme.turnPage s o.1 o.2) := by
        rw [← hobj.onPage o hmem]
        refine recorded_turnPage (by rwa [hobj.onPage o hmem]) ?_
        exact (by decide : 4 ∣ 8).trans (hobj.destination o hmem).2
      obtain ⟨s₁, hsave, h₁⟩ := hturn.saveForwardingPtr (hobj.onPage o hmem) (hoffset o hmem)
        fun hne => absurd rfl hne
      rw [saveForwardingPtr_turnPage] at hsave
      have hdistance : ∀ q ∈ rest, 16 ≤ q.2 - o.2 := by
        intro q hq
        obtain ⟨i, hi, rfl⟩ := List.getElem_of_mem hq
        have hdist := (hobj.distance (Nat.succ_pos _) (i + 1) (Nat.succ_lt_succ hi)).1
        rw [List.getElem_cons_succ, List.getElem_cons_zero] at hdist
        omega
      obtain ⟨s', hrun, h'⟩ := h₁.saveForwardingPtrs rest
        (fun q hq => hobj.onPage q (List.mem_cons_of_mem _ hq))
        (fun q hq => hoffset q (List.mem_cons_of_mem _ hq)) (List.cons_ne_nil _ _) hdistance
      have h'' : Recorded scheme page o.2 (o :: rest) s' := h'
      have hentry : storeLast s' page = s'.entry := by
        rw [storeLast, h'.page_eq]
        exact Function.update_self ..
      refine ⟨s', ?_, ?_, ?_⟩
      · rw [CompactScheme.saveForwardingPtrs, hsave, Option.bind_some, hrun]
      · intro q hq offset hle
        rw [hentry]
        exact h''.getObjectOrdinal hobj.offset_lt (hle.trans_lt (hoffset q hq))
      · intro i hi
        have hwalk := hobj.walkObjects_eq i 0 (by omega) (by omega)
        rw [List.get_eq_getElem, hwalk,
          h''.getForwardingPtr hobj hoffset hi (Nat.succ_pos _) rfl hentry]
        congr 3
        omega

theorem forwardingSound_iff_threeObjects :
    ForwardingSound ⟨4096, 4096, 8192⟩ (fun _ => 16) 0 [(4096, 4096), (4112, 4112), (4768, 4128)]
      ⟨fun _ => ⟨0, 0#64⟩, ⟨0, 0#64⟩, none, 0⟩ := by
  refine (forwardingSound_iff (fun _ => 16) 0 _ _ ?_ (by decide)).2 (by decide)
  constructor <;> decide

/-- An object at 688 bytes sets the lowest bit of the first hint: the second object of the page
is looked for 24 bytes behind the first one instead of 16. -/
theorem forwardingSound_fails :
    PageObjects ⟨4096, 4096, 8192⟩ (fun _ => 16) 0 [(4096, 4096), (4112, 4112), (4784, 4128)] ∧
      (∃ s', saveForwardingPtrs ⟨4096, 4096, 8192⟩ [(4096, 4096), (4112, 4112), (4784, 4128)]
          ⟨fun _ => ⟨0, 0#64⟩, ⟨0, 0#64⟩, none, 0⟩ = some s' ∧
        getForwardingPtr ⟨4096, 4096, 8192⟩ (fun _ => 16) (storeLast s') 4112 = some 4120) ∧
      ¬ ForwardingSound ⟨4096, 4096, 8192⟩ (fun _ => 16) 0
        [(4096, 4096), (4112, 4112), (4784, 4128)]
        ⟨fun _ => ⟨0, 0#64⟩, ⟨0, 0#64⟩, none, 0⟩ := by
  refine ⟨by constructor <;> decide, ⟨_, rfl, by decide +kernel⟩, ?_⟩
  intro hsound
  have hapart := hsound.apart (4784, 4128) (by simp) 0 (by decide)
  exact absurd hapart (by decide)

end CompactScheme

end OMR.GC.Compact
