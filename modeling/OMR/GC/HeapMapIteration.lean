import OMR.GC.HeapMapIterator

/-!
# The heap map iterator enumerates the map

A call of `nextObject` that begins at one bit ends behind the next bit that is set, or at the top
if there is none. So the calls return the marked slots one by one.
-/

namespace OMR.GC.HeapMapIterator

/-- The bit of the map with a number. -/
def bitAt (map : HeapMap) (p : ℕ) : Bool := (map.slot (p / 64)).getLsbD (p % 64)

/-- The address of the slot that a bit stands for. -/
def slotAddress (map : HeapMap) (p : ℕ) : ℕ := map.heapBase + sizeofSlot * p

variable {map : HeapMap} {size : ℕ → ℕ} {it : HeapMapIterator} {p : ℕ}

theorem bitNumber_slotAddress (hmap : map.useCompressedHeapMap = false) (p : ℕ) :
    map.bitNumber (slotAddress map p) = p := by
  have hgrain : map.objectGrain = 8 := by
    simp [HeapMap.objectGrain, HeapMap.heapMapBitShift, hmap]
  unfold HeapMap.bitNumber slotAddress sizeofSlot
  rw [hgrain]
  omega

theorem isBitSet_slotAddress (hmap : map.useCompressedHeapMap = false) (p : ℕ) :
    map.isBitSet (slotAddress map p) = bitAt map p := by
  rw [map.isBitSet_eq, map.getSlotIndex_eq, map.getBitIndex_eq, bitNumber_slotAddress hmap]
  rfl

theorem slotAddress_add (p k : ℕ) :
    slotAddress map (p + k) = slotAddress map p + sizeofSlot * k := by
  unfold slotAddress
  ring

/-- The heap pointer, the map pointer, the bit index and the copy of the word are at one bit. -/
structure InStep (map : HeapMap) (it : HeapMapIterator) (p : ℕ) : Prop where
  slot : it.heapSlotCurrent = slotAddress map p
  word : it.heapMapSlotCurrent = p / 64
  bit : it.bitIndexHead = p % 64
  value : it.heapSlotCurrent < it.heapChunkTop →
    it.heapMapSlotValue = map.slot (p / 64) >>> (p % 64)

/-- Words that hold the slot of a bit from `p` on below the top. -/
def ReadsIn (map : HeapMap) (p top : ℕ) (reads : List ℕ) : Prop :=
  ∀ w ∈ reads, ∃ q, p ≤ q ∧ slotAddress map q < top ∧ w = q / 64

theorem ReadsIn.append {top : ℕ} {l l' : List ℕ} (h : ReadsIn map p top l)
    (h' : ReadsIn map p top l') : ReadsIn map p top (l ++ l') := by
  intro w hw
  rcases List.mem_append.1 hw with hw | hw
  · exact h w hw
  · exact h' w hw

theorem ReadsIn.mono {top p' : ℕ} {l : List ℕ} (h : ReadsIn map p' top l) (hle : p ≤ p') :
    ReadsIn map p top l := by
  intro w hw
  obtain ⟨q, hq, hrest⟩ := h w hw
  exact ⟨q, hle.trans hq, hrest⟩

theorem ReadsIn.nil {top : ℕ} : ReadsIn map p top [] := fun _ hw => absurd hw List.not_mem_nil

/-- Caching puts the copy in step with the rest, and reads the word of the current slot at most. -/
theorem cacheSlot_inStep (hslot : it.heapSlotCurrent = slotAddress map p)
    (hword : it.heapMapSlotCurrent = p / 64) (hbit : it.bitIndexHead = p % 64) :
    InStep map (cacheSlot map it).1 p ∧
      ReadsIn map p it.heapChunkTop (cacheSlot map it).2 ∧
      (cacheSlot map it).1.heapChunkTop = it.heapChunkTop ∧
      (cacheSlot map it).1.useLargeObjectOptimization = it.useLargeObjectOptimization := by
  unfold cacheSlot
  split
  next hlt =>
    refine ⟨⟨hslot, hword, hbit, fun _ => by rw [hword, hbit]⟩, fun w hw => ?_, rfl, rfl⟩
    exact ⟨p, le_rfl, hslot ▸ hlt, (List.mem_singleton.1 hw).trans hword⟩
  next hge =>
    exact ⟨⟨hslot, hword, hbit, fun hlt => absurd hlt hge⟩, ReadsIn.nil, rfl, rfl⟩

/-- A shifted word shows the bits from the current one to the end of the word. -/
theorem bitAt_of_word (k : ℕ) (h : p % 64 + k < 64) :
    bitAt map (p + k) = (map.slot (p / 64) >>> (p % 64)).getLsbD k := by
  have hdiv : (p + k) / 64 = p / 64 := by omega
  have hmod : (p + k) % 64 = p % 64 + k := by omega
  rw [bitAt, hdiv, hmod, BitVec.getLsbD_ushiftRight]

/-- On to the first bit that the copy has. -/
theorem skipZeroes_inStep (h : InStep map it p) (hlt : it.heapSlotCurrent < it.heapChunkTop)
    (hne : it.heapMapSlotValue ≠ 0#64) :
    ∃ z, (skipZeroes it).heapSlotCurrent = slotAddress map (p + z) ∧
      (skipZeroes it).heapMapSlotCurrent = (p + z) / 64 ∧
      (skipZeroes it).bitIndexHead = (p + z) % 64 ∧
      (skipZeroes it).heapMapSlotValue = map.slot ((p + z) / 64) >>> ((p + z) % 64) ∧
      bitAt map (p + z) = true ∧ ∀ k, k < z → bitAt map (p + k) = false := by
  have hvalue := h.value hlt
  have hset := BitVec.getLsbD_true_ctz_of_ne_zero hne
  have hunset : ∀ k, k < it.heapMapSlotValue.ctz.toNat →
      it.heapMapSlotValue.getLsbD k = false := fun k hk => BitVec.getLsbD_false_of_lt_ctz hk
  unfold skipZeroes
  simp only [h.slot, h.word, h.bit]
  revert hset hunset
  generalize it.heapMapSlotValue.ctz.toNat = z
  intro hset hunset
  rw [hvalue] at hset hunset ⊢
  have hin : p % 64 + z < 64 := by
    rw [BitVec.getLsbD_ushiftRight] at hset
    exact BitVec.lt_of_getLsbD hset
  have hdiv : (p + z) / 64 = p / 64 := by omega
  have hmod : (p + z) % 64 = p % 64 + z := by omega
  refine ⟨z, ?_, hdiv.symm, hmod.symm, ?_, ?_, fun k hk => ?_⟩
  · rw [slotAddress_add, heapSlotsPerHeapMapBit, Nat.one_mul]
  · rw [hdiv, hmod, BitVec.shiftRight_add]
  · rw [bitAt_of_word z hin]
    exact hset
  · rw [bitAt_of_word k (by omega)]
    exact hunset k hk

/-- Over the body of an object, within the word or into a later one. -/
theorem jumpOver_inStep (hslot : it.heapSlotCurrent = slotAddress map p)
    (hword : it.heapMapSlotCurrent = p / 64) (hbit : it.bitIndexHead = p % 64)
    (hvalue : it.heapMapSlotValue = map.slot (p / 64) >>> (p % 64)) (s : ℕ) :
    InStep map (jumpOver map it s).1 (p + s) ∧
      ReadsIn map (p + s) it.heapChunkTop (jumpOver map it s).2 ∧
      (jumpOver map it s).1.heapChunkTop = it.heapChunkTop ∧
      (jumpOver map it s).1.useLargeObjectOptimization = it.useLargeObjectOptimization := by
  have hnext : it.heapSlotCurrent + sizeofSlot * (heapSlotsPerHeapMapBit * s) =
      slotAddress map (p + s) := by
    rw [hslot, slotAddress_add, heapSlotsPerHeapMapBit, Nat.one_mul]
  unfold jumpOver
  simp only [hnext]
  split
  next hadvance =>
    refine cacheSlot_inStep rfl ?_ ?_
    · simp only [hword, hbit, bitsInSlot]
      omega
    · simp only [hbit, bitsInSlot]
      omega
  next hstay =>
    simp only [hbit, bitsInSlot, ne_eq, not_not] at hstay
    have hlt : p % 64 + s < 64 := by omega
    have hdiv : (p + s) / 64 = p / 64 := by omega
    have hmod : (p + s) % 64 = p % 64 + s := by omega
    refine ⟨⟨rfl, ?_, ?_, fun _ => ?_⟩, ReadsIn.nil, rfl, rfl⟩
    · simp only [hword, hbit, bitsInSlot]
      omega
    · simp only [hbit, bitsInSlot]
      omega
    · have hs : s % bitsInSlot = s := Nat.mod_eq_of_lt (by unfold bitsInSlot; omega)
      simp only [hvalue, hs, hdiv, hmod, BitVec.shiftRight_add]

/-- A word without a bit is left for the next one. -/
theorem nextSlot_inStep (h : InStep map it p) (hlt : it.heapSlotCurrent < it.heapChunkTop)
    (hzero : it.heapMapSlotValue = 0#64) :
    ∃ z, 0 < z ∧ InStep map (nextSlot map it).1 (p + z) ∧
      ReadsIn map (p + z) it.heapChunkTop (nextSlot map it).2 ∧
      (nextSlot map it).1.heapChunkTop = it.heapChunkTop ∧
      (nextSlot map it).1.useLargeObjectOptimization = it.useLargeObjectOptimization ∧
      ∀ k, k < z → bitAt map (p + k) = false := by
  have hbit : p % 64 < 64 := Nat.mod_lt _ (by decide)
  have hstep := @cacheSlot_inStep map
    { it with
      heapSlotCurrent := it.heapSlotCurrent +
        sizeofSlot * (heapSlotsPerHeapMapBit * (bitsInSlot - it.bitIndexHead))
      heapMapSlotCurrent := it.heapMapSlotCurrent + 1
      bitIndexHead := 0 } (p + (64 - p % 64))
    (by simp only [h.slot, h.bit, slotAddress_add, heapSlotsPerHeapMapBit, bitsInSlot, Nat.one_mul])
    (by simp only [h.word]; omega) (by simp only []; omega)
  obtain ⟨hin, hreads, htop, hopt⟩ := hstep
  refine ⟨64 - p % 64, by omega, hin, hreads, htop, hopt, fun k hk => ?_⟩
  rw [bitAt_of_word k (by omega), ← h.value hlt, hzero, BitVec.getLsbD_zero]

/-- Where a call that begins at bit `p` ends: behind the next bit that is set, or at the top. -/
def NextFrom (map : HeapMap) (size : ℕ → ℕ) (it : HeapMapIterator) (p : ℕ) (object : Option ℕ)
    (next : HeapMapIterator) : Prop :=
  (∃ q, p ≤ q ∧ slotAddress map q < it.heapChunkTop ∧ bitAt map q = true ∧
    (∀ r, p ≤ r → r < q → bitAt map r = false) ∧ object = some (slotAddress map q) ∧
    InStep map next (q + sizeInHeapMapBits size it (slotAddress map q))) ∨
  ((∀ r, p ≤ r → slotAddress map r < it.heapChunkTop → bitAt map r = false) ∧ object = none ∧
    ∃ p', p ≤ p' ∧ InStep map next p' ∧ it.heapChunkTop ≤ slotAddress map p')

theorem slotAddress_le_slotAddress {q : ℕ} (h : p ≤ q) : slotAddress map p ≤ slotAddress map q :=
  Nat.add_le_add_left (Nat.mul_le_mul_left _ h) _

/-- A call, by induction on the words without a bit that it leaves behind. -/
theorem nextObjectLoop_spec (size : ℕ → ℕ) : ∀ fuel it p, InStep map it p →
    it.heapChunkTop - it.heapSlotCurrent < fuel →
    ∃ object next reads, nextObjectLoop map size fuel it = some (object, next, reads) ∧
      ReadsIn map p it.heapChunkTop reads ∧ next.heapChunkTop = it.heapChunkTop ∧
      next.useLargeObjectOptimization = it.useLargeObjectOptimization ∧
      NextFrom map size it p object next
  | 0, it, p, h, hfuel => absurd hfuel (Nat.not_lt_zero _)
  | fuel + 1, it, p, h, hfuel => by
    rw [nextObjectLoop]
    split
    next hlt =>
      split
      next hne =>
        obtain ⟨z, hslot, hword, hbit, hvalue, hset, hunset⟩ := skipZeroes_inStep h hlt hne
        have htop : (skipZeroes it).heapChunkTop = it.heapChunkTop := rfl
        have hopt : (skipZeroes it).useLargeObjectOptimization =
          it.useLargeObjectOptimization := rfl
        obtain ⟨hin, hreads, htop', hopt'⟩ := jumpOver_inStep hslot hword hbit hvalue
          (sizeInHeapMapBits size it (slotAddress map (p + z)))
        dsimp only
        rw [hslot]
        revert hin hreads htop' hopt'
        generalize jumpOver map (skipZeroes it) _ = r
        intro hin hreads htop' hopt'
        refine ⟨_, r.1, r.2, rfl, (htop ▸ hreads).mono (by omega), htop'.trans htop,
          hopt'.trans hopt, ?_⟩
        have hbefore : ∀ r, p ≤ r → r < p + z → bitAt map r = false := by
          intro r hr hrz
          obtain ⟨k, rfl⟩ := Nat.exists_eq_add_of_le hr
          exact hunset k (by omega)
        by_cases hbelow : slotAddress map (p + z) < it.heapChunkTop
        · exact .inl ⟨p + z, by omega, hbelow, hset, hbefore, if_pos hbelow, hin⟩
        · refine .inr ⟨fun r hr hrtop => ?_, if_neg hbelow, _, by omega, hin, ?_⟩
          · refine hbefore r hr ?_
            by_contra hge
            have hle : slotAddress map (p + z) ≤ slotAddress map r :=
              slotAddress_le_slotAddress (by omega)
            omega
          · have hle : slotAddress map (p + z) ≤
                slotAddress map (p + z + sizeInHeapMapBits size it (slotAddress map (p + z))) :=
              slotAddress_le_slotAddress (Nat.le_add_right ..)
            omega
      next hzero =>
        obtain ⟨z, hz, hin, hreads, htop, hopt, hunset⟩ :=
          nextSlot_inStep h hlt (not_not.1 hzero)
        have hmoved : it.heapSlotCurrent < (nextSlot map it).1.heapSlotCurrent := by
          rw [h.slot, hin.slot, slotAddress_add, sizeofSlot]
          omega
        obtain ⟨object, next, reads, hrun, hreads', htop', hopt', hnext⟩ :=
          nextObjectLoop_spec size fuel _ (p + z) hin (by rw [htop]; omega)
        rw [htop] at hreads' htop'
        refine ⟨object, next, _, by simp only [hrun, Option.map_some],
          (hreads.append hreads').mono (by omega), htop', hopt'.trans hopt, ?_⟩
        have hsize : sizeInHeapMapBits size (nextSlot map it).1 = sizeInHeapMapBits size it := by
          funext a
          simp only [sizeInHeapMapBits, hopt]
        have hskip : ∀ r, p ≤ r → r < p + z → bitAt map r = false := by
          intro r hr hrz
          obtain ⟨k, rfl⟩ := Nat.exists_eq_add_of_le hr
          exact hunset k (by omega)
        unfold NextFrom at hnext ⊢
        rw [htop, hsize] at hnext
        rcases hnext with ⟨q, hq, hqtop, hqset, hbetween, hobject, hin'⟩ |
          ⟨hnone, hobject, p', hp', hin', htop''⟩
        · refine .inl ⟨q, by omega, hqtop, hqset, fun r hr hrq => ?_, hobject, hin'⟩
          rcases Nat.lt_or_ge r (p + z) with hrz | hrz
          · exact hskip r hr hrz
          · exact hbetween r hrz hrq
        · refine .inr ⟨fun r hr hrtop => ?_, hobject, p', by omega, hin', htop''⟩
          rcases Nat.lt_or_ge r (p + z) with hrz | hrz
          · exact hskip r hr hrz
          · exact hnone r hrz hrtop
    next hge =>
      refine ⟨none, it, [], rfl, ReadsIn.nil, rfl, rfl, .inr ⟨fun r hr hrtop => ?_, rfl, p,
        le_rfl, h, ?_⟩⟩
      · have hle : slotAddress map p ≤ slotAddress map r := slotAddress_le_slotAddress hr
        rw [← h.slot] at hle
        omega
      · rw [← h.slot]
        omega

/-- The bits from `p` on that are set and are those of slots below the top, by their addresses. -/
def markedFrom (map : HeapMap) (top p : ℕ) : List ℕ :=
  ((List.range' p ((top - map.heapBase + 7) / sizeofSlot - p)).filter (bitAt map)).map
    (slotAddress map)

theorem slotAddress_lt_iff {top q : ℕ} :
    slotAddress map q < top ↔ q < (top - map.heapBase + 7) / sizeofSlot := by
  unfold slotAddress sizeofSlot
  omega

theorem markedFrom_succ {top : ℕ} (h : slotAddress map p < top → bitAt map p = false) :
    markedFrom map top p = markedFrom map top (p + 1) := by
  rw [slotAddress_lt_iff] at h
  unfold markedFrom
  generalize (top - map.heapBase + 7) / sizeofSlot = n at h
  by_cases hp : p < n
  · obtain ⟨k, rfl⟩ : ∃ k, n = p + (k + 1) := ⟨n - p - 1, by omega⟩
    rw [show p + (k + 1) - p = k + 1 by omega, show p + (k + 1) - (p + 1) = k by omega,
      List.range'_succ, List.filter_cons_of_neg (by simp [h hp])]
  · rw [show n - p = 0 by omega, show n - (p + 1) = 0 by omega, List.range'_zero, List.range'_zero]

/-- Bits that are not set may be passed over. -/
theorem markedFrom_skip {top q : ℕ} (hle : p ≤ q)
    (h : ∀ r, p ≤ r → r < q → slotAddress map r < top → bitAt map r = false) :
    markedFrom map top p = markedFrom map top q := by
  induction q, hle using Nat.le_induction with
  | base => rfl
  | succ q hpq ih =>
    rw [ih fun r hr hrq => h r hr (by omega)]
    exact markedFrom_succ (h q hpq (by omega))

theorem markedFrom_of_set {top : ℕ} (hlt : slotAddress map p < top) (h : bitAt map p = true) :
    markedFrom map top p = slotAddress map p :: markedFrom map top (p + 1) := by
  rw [slotAddress_lt_iff] at hlt
  unfold markedFrom
  generalize (top - map.heapBase + 7) / sizeofSlot = n at hlt
  obtain ⟨k, rfl⟩ : ∃ k, n = p + (k + 1) := ⟨n - p - 1, by omega⟩
  rw [show p + (k + 1) - p = k + 1 by omega, show p + (k + 1) - (p + 1) = k by omega,
    List.range'_succ, List.filter_cons_of_pos h, List.map_cons]

theorem markedFrom_of_none {top : ℕ}
    (h : ∀ r, p ≤ r → slotAddress map r < top → bitAt map r = false) :
    markedFrom map top p = [] := by
  unfold markedFrom
  rw [List.filter_eq_nil_iff.2, List.map_nil]
  intro r hr
  obtain ⟨hlo, hhi⟩ := List.mem_range'_1.1 hr
  have := h r hlo (slotAddress_lt_iff.2 (by omega))
  simp [this]

/-- An object is at least one bit long, and the bits of its body are not set. -/
theorem sizeInHeapMapBits_spec (it : HeapMapIterator) (hmap : map.useCompressedHeapMap = false)
    {base q : ℕ}
    (hobjects : it.useLargeObjectOptimization = true → ObjectExtents map size base it.heapChunkTop)
    (hbase : base ≤ slotAddress map q) (hlt : slotAddress map q < it.heapChunkTop)
    (hset : bitAt map q = true) :
    0 < sizeInHeapMapBits size it (slotAddress map q) ∧
      ∀ r, q + 1 ≤ r → r < q + sizeInHeapMapBits size it (slotAddress map q) →
        bitAt map r = false := by
  rw [← isBitSet_slotAddress hmap] at hset
  unfold sizeInHeapMapBits heapSlotsPerHeapMapBit
  split
  next hopt =>
    have hslot := (hobjects hopt).slot_le _ hbase hlt hset
    have hinside := (hobjects hopt).inside _ hbase hlt hset
    rw [Nat.div_one]
    refine ⟨Nat.div_pos hslot (by decide), fun r hr hrlt => ?_⟩
    obtain ⟨k, rfl⟩ := Nat.exists_eq_add_of_le (show q ≤ r by omega)
    rw [← isBitSet_slotAddress hmap, slotAddress_add]
    refine hinside k (by omega) ?_
    unfold sizeofSlot at hrlt ⊢
    omega
  next => exact ⟨Nat.one_pos, fun r hr hrlt => absurd hrlt (by omega)⟩

/-- The results of the first calls: the objects, and then `NULL` for ever. -/
def answers (objects : List ℕ) (calls : ℕ) : List (Option ℕ) :=
  (objects.map some ++ List.replicate calls none).take calls

theorem answers_nil (calls : ℕ) : answers [] (calls + 1) = none :: answers [] calls := by
  simp [answers, List.replicate_succ]

theorem answers_cons (a : ℕ) (l : List ℕ) (calls : ℕ) :
    answers (a :: l) (calls + 1) = some a :: answers l calls := by
  have hmin : min (calls - l.length) (calls + 1) = min (calls - l.length) calls := by omega
  simp only [answers, List.map_cons, List.cons_append, List.take_succ_cons, List.take_append,
    List.length_map, List.take_replicate, hmin]

/-- The calls from one bit on, by induction on their number. -/
theorem nextObjects_spec (hmap : map.useCompressedHeapMap = false) (size : ℕ → ℕ) {base : ℕ} :
    ∀ calls it p, InStep map it p → base ≤ slotAddress map p →
      (it.useLargeObjectOptimization = true → ObjectExtents map size base it.heapChunkTop) →
      ∃ objects reads, nextObjects map size calls it = some (objects, reads) ∧
        ReadsIn map p it.heapChunkTop reads ∧
        objects = answers (markedFrom map it.heapChunkTop p) calls
  | 0, it, p, _, _, _ => ⟨[], [], rfl, ReadsIn.nil, rfl⟩
  | calls + 1, it, p, h, hbase, hobjects => by
    obtain ⟨object, next, reads, hrun, hreads, htop, hopt, hnext⟩ :=
      nextObjectLoop_spec size (it.heapChunkTop - it.heapSlotCurrent + 1) it p h
        (Nat.lt_succ_self _)
    rw [← htop, ← hopt] at hobjects
    unfold NextFrom at hnext
    rcases hnext with ⟨q, hq, hqtop, hqset, hbetween, rfl, hin⟩ | ⟨hnone, rfl, p', hp', hin, hend⟩
    · have hqbase := hbase.trans (slotAddress_le_slotAddress hq)
      obtain ⟨hpos, hbody⟩ := sizeInHeapMapBits_spec it hmap
        (by rwa [htop, hopt] at hobjects) hqbase hqtop hqset
      revert hin hpos hbody
      generalize sizeInHeapMapBits size it (slotAddress map q) = s
      intro hin hpos hbody
      obtain ⟨objects, reads', hruns, hreads', hlist⟩ := nextObjects_spec hmap size calls next _ hin
        (hqbase.trans (slotAddress_le_slotAddress (Nat.le_add_right q s))) hobjects
      rw [htop] at hreads' hlist
      refine ⟨some (slotAddress map q) :: objects, reads ++ reads', ?_,
        hreads.append (hreads'.mono (by omega)), ?_⟩
      · simp [nextObjects, nextObject, hrun, hruns]
      · rw [markedFrom_skip hq fun r hr hrq _ => hbetween r hr hrq, markedFrom_of_set hqtop hqset,
          markedFrom_skip (show q + 1 ≤ q + s by omega) fun r hr hrs _ => hbody r hr hrs,
          answers_cons, hlist]
    · obtain ⟨objects, reads', hruns, hreads', hlist⟩ := nextObjects_spec hmap size calls next p' hin
        (hbase.trans (slotAddress_le_slotAddress hp')) hobjects
      rw [htop] at hreads' hlist
      refine ⟨none :: objects, reads ++ reads', ?_, hreads.append (hreads'.mono hp'), ?_⟩
      · simp [nextObjects, nextObject, hrun, hruns]
      · rw [markedFrom_of_none fun r hr hrtop => hnone r (hp'.trans hr) hrtop] at hlist
        rw [markedFrom_of_none hnone, answers_nil, hlist]

/-- The marked slots of a chunk, as its bits give them. -/
theorem filter_heapSlots (hmap : map.useCompressedHeapMap = false) (p top : ℕ) :
    (heapSlots (slotAddress map p) top).filter map.isBitSet = markedFrom map top p := by
  have hcount : (top - slotAddress map p + 7) / sizeofSlot =
      (top - map.heapBase + 7) / sizeofSlot - p := by
    unfold slotAddress sizeofSlot
    omega
  have haddress : (fun k => slotAddress map p + sizeofSlot * k) =
      slotAddress map ∘ fun k => p + k := by
    funext k
    rw [Function.comp_apply, slotAddress_add]
  have hbit : map.isBitSet ∘ slotAddress map = bitAt map := by
    funext q
    exact isBitSet_slotAddress hmap q
  rw [heapSlots, hcount, haddress, ← List.map_map, ← List.range'_eq_map_range, List.filter_map,
    hbit, markedFrom]

/-- A fresh iterator is in step at the bit of its base. -/
theorem reset_inStep (hmap : map.useCompressedHeapMap = false) (it : HeapMapIterator)
    (p top : ℕ) :
    InStep map (reset map it (slotAddress map p) top).1 p ∧
      ReadsIn map p top (reset map it (slotAddress map p) top).2 ∧
      (reset map it (slotAddress map p) top).1.heapChunkTop = top ∧
      (reset map it (slotAddress map p) top).1.useLargeObjectOptimization =
        it.useLargeObjectOptimization := by
  unfold reset
  refine cacheSlot_inStep rfl ?_ ?_
  · simp only [slotAddress, roundToFloor, heapMapAlignment, heapSlotsPerHeapMapSlot, sizeofSlot,
      heapSlotsPerHeapMapBit, bitsInSlot]
    omega
  · simp only [map.getBitIndex_eq, bitNumber_slotAddress hmap, bitsInSlot]

/-- A fresh iterator over a chunk returns the marked slots of it, each once and in increasing
order, and then `NULL` for ever, and it reads words only that hold a slot of the chunk. -/
theorem nextObjects_enumerate (map : HeapMap) (hmap : map.useCompressedHeapMap = false)
    (getConsumedSizeInBytesWithHeader : ℕ → ℕ) (it : HeapMapIterator) (base top : ℕ)
    (hbase : map.heapBase ≤ base) (haligned : sizeofSlot ∣ base - map.heapBase)
    (hobjects : it.useLargeObjectOptimization = true →
      ObjectExtents map getConsumedSizeInBytesWithHeader base top) (calls : ℕ) :
    ∃ objects reads,
      nextObjects map getConsumedSizeInBytesWithHeader calls (reset map it base top).1 =
        some (objects, reads) ∧
      objects = (((heapSlots base top).filter map.isBitSet).map some ++
        List.replicate calls none).take calls ∧
      ∀ w ∈ (reset map it base top).2 ++ reads,
        ∃ a ∈ heapSlots base top, w = map.getSlotIndex a := by
  obtain ⟨p, hp⟩ := haligned
  obtain rfl : base = slotAddress map p := by
    unfold slotAddress
    omega
  obtain ⟨hin, hreads, htop, hopt⟩ := reset_inStep hmap it p top
  rw [← hopt, ← htop] at hobjects
  obtain ⟨objects, reads, hrun, hreads', hlist⟩ := nextObjects_spec hmap
    getConsumedSizeInBytesWithHeader calls _ p hin le_rfl (by rwa [htop] at hobjects ⊢)
  rw [htop] at hreads' hlist
  refine ⟨objects, reads, hrun, ?_, fun w hw => ?_⟩
  · rw [filter_heapSlots hmap, hlist, answers]
  · obtain ⟨q, hq, hqtop, rfl⟩ := hreads.append hreads' w hw
    obtain ⟨k, rfl⟩ := Nat.exists_eq_add_of_le hq
    rw [slotAddress_add] at hqtop
    refine ⟨slotAddress map p + sizeofSlot * k, List.mem_map.2 ⟨k, List.mem_range.2 ?_, rfl⟩, ?_⟩
    · unfold sizeofSlot at hqtop ⊢
      omega
    · rw [map.getSlotIndex_eq, ← slotAddress_add, bitNumber_slotAddress hmap, bitsInSlot]

/-- Objects of 24 bytes at 8 and of 600 bytes at 32, and one more behind them. -/
def threeObjects : HeapMap :=
  ⟨false, 0, fun i => if i = 0 then 0x12#64 else if i = 1 then 0x8000#64 else 0#64⟩

def threeObjectsSize (objectPtr : ℕ) : ℕ := if objectPtr / 8 = 4 then 600 else 24

theorem threeObjects_inside : ∀ a < 640, threeObjects.isBitSet a = true → ∀ k < 75, 0 < k →
    sizeofSlot * k < threeObjectsSize a → threeObjects.isBitSet (a + sizeofSlot * k) = false := by
  decide +kernel

theorem nextObjects_enumerate_threeObjects : ∃ objects reads,
    nextObjects threeObjects threeObjectsSize 4
      (reset threeObjects ⟨0, 0, 0, 0, 0, true⟩ 8 640).1 = some (objects, reads) ∧
    objects = [some 8, some 32, some 632, none] := by
  have hextents : ObjectExtents threeObjects threeObjectsSize 8 640 := by
    have hlo : ∀ a, 24 ≤ threeObjectsSize a := by
      intro a
      unfold threeObjectsSize
      split <;> omega
    have hhi : ∀ a, threeObjectsSize a ≤ 600 := by
      intro a
      unfold threeObjectsSize
      split <;> omega
    refine ⟨fun a _ _ _ => le_trans (by decide) (hlo a), fun a _ ha hset k hk hlt => ?_⟩
    refine threeObjects_inside a ha hset k ?_ hk hlt
    have := hhi a
    unfold sizeofSlot at hlt
    omega
  obtain ⟨objects, reads, hrun, hlist, -⟩ := nextObjects_enumerate threeObjects rfl
    threeObjectsSize ⟨0, 0, 0, 0, 0, true⟩ 8 640 (by decide) (by decide) (fun _ => hextents) 4
  exact ⟨objects, reads, hrun, hlist.trans (by decide +kernel)⟩

end OMR.GC.HeapMapIterator
