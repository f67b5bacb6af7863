import Mathlib.Tactic
import OMR.Lib.LinkedList
import OMR.Util.PoolOperations

/-!
# Runs of a `J9Pool`

Every run of `pool_newElement`, `pool_removeElement`, `pool_ensureCapacity` and
`pool_clear` on a new pool keeps the representation invariant as long as the layout of
the pool was computed without wrapping and no removal is of the kind that loses a slot.
-/

namespace OMR.Util.Pool

open OMR.Lib

namespace J9Pool

variable {pool : J9Pool} {live : List ℕ}

/-- Memory for several new puddles. -/
structure FreshAll (pool : J9Pool) (memory : List ℕ) : Prop where
  fresh : ∀ m ∈ memory, pool.Fresh m
  apart : memory.Pairwise fun m m' => (pool.block m).Apart (pool.block m')

/-- A puddle appended by `pool_ensureCapacity`. The link back to it is missing, and only
a pool that frees puddles would need it. -/
theorem appendPuddle_spec (h : pool.Represents live) (hl : pool.Linked)
    (hnever : pool.neverFreePuddles = true) {memory : ℕ} (hf : pool.Fresh memory) :
    (pool.appendPuddle memory).Represents live ∧ (pool.appendPuddle memory).Linked := by
  have hself : (pool.appendPuddle memory).prevAvailable memory = none := by
    simp [prevAvailable, appendPuddle, setPuddle, PuddleShape.puddleInit]
  refine ⟨h.addPuddle hf rfl rfl (List.perm_append_singleton _ _) rfl rfl,
    fun q hq => ?_, fun hnf => ?_, fun q hq hna => ?_⟩
  · cases hq
    exact hself
  · cases hnever.symm.trans hnf
  · have hna : q ∉ memory :: pool.available := hna
    rw [List.mem_cons, not_or] at hna
    obtain ⟨hne, hna⟩ := hna
    have hold := hl.unlinked q ((List.mem_append.1 hq).resolve_right (by simpa using hne)) hna
    simpa [prevAvailable, appendPuddle, setPuddle, Function.update_of_ne hne] using hold

theorem FreshAll.appendPuddle {memory : ℕ} {rest : List ℕ} (hf : pool.FreshAll (memory :: rest)) :
    (pool.appendPuddle memory).FreshAll rest := by
  obtain ⟨hfirst, hrest⟩ := List.pairwise_cons.1 hf.apart
  refine ⟨fun m hm => ⟨(hf.fresh m (List.mem_cons_of_mem _ hm)).dvd, fun q hq => ?_⟩, hrest⟩
  obtain hq | hq := List.mem_append.1 hq
  · exact (hf.fresh m (List.mem_cons_of_mem _ hm)).apart q hq
  · obtain rfl := List.mem_singleton.1 hq
    exact (hfirst m hm).symm

theorem appendPuddles_spec {newSize : ℕ} {memory : List ℕ} {pool' : J9Pool}
    (h : pool.Represents live) (hl : pool.Linked) (hnever : pool.neverFreePuddles = true)
    (hf : pool.FreshAll memory) (happ : pool.appendPuddles newSize memory = some pool') :
    pool'.Represents live ∧ pool'.Linked ∧ pool'.toPuddleShape = pool.toPuddleShape := by
  induction memory generalizing pool newSize with
  | nil =>
    unfold appendPuddles at happ
    split at happ <;> cases happ
    exact ⟨h, hl, rfl⟩
  | cons m rest ih =>
    unfold appendPuddles at happ
    split at happ
    · cases happ
      exact ⟨h, hl, rfl⟩
    · obtain ⟨h₁, hl₁⟩ := appendPuddle_spec h hl hnever (hf.fresh m (List.mem_cons_self ..))
      have hrest := ih h₁ hl₁ hnever hf.appendPuddle happ
      exact hrest

theorem ensureCapacity_spec {newCapacity : ℕ} {memory : List ℕ} {pool' : J9Pool}
    (h : pool.Represents live) (hl : pool.Linked) (hf : pool.FreshAll memory)
    (hcap : pool.ensureCapacity newCapacity memory = some pool') :
    pool'.Represents live ∧ pool'.Linked ∧ pool'.toPuddleShape = pool.toPuddleShape := by
  have h₁ : ({ pool with neverFreePuddles := true } : J9Pool).Represents live :=
    ⟨h.shape, h.puddles_ne, h.puddle_dvd, h.apart, h.described, h.numElements_eq, h.live_nodup,
      h.mem_live, h.available_nodup, h.mem_available⟩
  have hl₁ : ({ pool with neverFreePuddles := true } : J9Pool).Linked :=
    ⟨hl.head, fun hnf => (nomatch hnf), hl.unlinked⟩
  have hf₁ : ({ pool with neverFreePuddles := true } : J9Pool).FreshAll memory :=
    ⟨fun m hm => ⟨(hf.fresh m hm).dvd, (hf.fresh m hm).apart⟩, hf.apart⟩
  have happ := appendPuddles_spec h₁ hl₁ rfl hf₁ hcap
  exact happ

theorem clearPuddles_spec {list : List ℕ} (hn : list.Nodup) (pool : J9Pool) (prev : Option ℕ) :
    (pool.clearPuddles prev list).toPuddleShape = pool.toPuddleShape ∧
    (pool.clearPuddles prev list).puddles = pool.puddles ∧
    (∀ q ∈ list, ∃ before,
      (pool.clearPuddles prev list).puddleAt q = pool.puddleInit q before) ∧
    (∀ q ∉ list, (pool.clearPuddles prev list).puddleAt q = pool.puddleAt q) ∧
    BackLinked (pool.clearPuddles prev list).prevAvailable prev list := by
  induction list generalizing pool prev with
  | nil => exact ⟨rfl, rfl, fun q hq => (nomatch hq), fun _ _ => rfl, trivial⟩
  | cons walk rest ih =>
    obtain ⟨hwalk, hrest⟩ := List.nodup_cons.1 hn
    obtain ⟨hshape, hpuddles, hin, hout, hlinks⟩ :=
      ih hrest (pool.setPuddle walk (pool.puddleInit walk prev)) (some walk)
    have hself : (pool.clearPuddles prev (walk :: rest)).puddleAt walk =
        pool.puddleInit walk prev := (hout walk hwalk).trans (Function.update_self ..)
    refine ⟨hshape, hpuddles, fun q hq => ?_, fun q hq => ?_, ?_, hlinks⟩
    · obtain rfl | hq := List.mem_cons.1 hq
      · exact ⟨prev, hself⟩
      · exact hin q hq
    · rw [List.mem_cons, not_or] at hq
      obtain ⟨hne, hq⟩ := hq
      exact (hout q hq).trans (Function.update_of_ne hne ..)
    · exact congrArg J9PoolPuddle.prevAvailablePuddle hself

theorem clear_spec (h : pool.Represents live) : pool.clear.Represents [] ∧ pool.clear.Linked ∧
    pool.clear.toPuddleShape = pool.toPuddleShape := by
  obtain ⟨hshape, hpuddles, hin, -, hlinks⟩ := clearPuddles_spec h.puddles_nodup pool none
  have hshape' : pool.clear.toPuddleShape = pool.toPuddleShape := hshape
  have hpuddles' : pool.clear.puddles = pool.puddles := hpuddles
  refine ⟨⟨hshape' ▸ h.shape, ?_, ?_, ?_, fun q hq => ?_, ?_, List.nodup_nil, fun e => ?_,
    h.puddles_nodup, fun q => ?_⟩, ⟨fun q hq => ?_, fun _ => hlinks, fun q hq hna => ?_⟩, hshape⟩
  · exact hpuddles'.symm ▸ h.puddles_ne
  · exact hpuddles'.symm ▸ h.puddle_dvd
  · rw [hpuddles', hshape']
    exact h.apart
  · obtain ⟨before, hinit⟩ := hin q (hpuddles' ▸ hq)
    rw [hshape']
    exact hinit ▸ PuddleShape.described_init h.shape q before
  · rw [hpuddles']
    refine (List.sum_eq_zero fun n hn => ?_).symm
    obtain ⟨q, hq, rfl⟩ := List.mem_map.1 hn
    obtain ⟨before, hinit⟩ := hin q hq
    exact congrArg J9PoolPuddle.usedElements hinit
  · refine ⟨fun he => (nomatch he), ?_⟩
    rintro ⟨q, hq, hh⟩
    obtain ⟨before, hinit⟩ := hin q (hpuddles' ▸ hq)
    rw [hshape'] at hh
    exact absurd (hinit ▸ hh) (PuddleShape.not_holds_init q e before)
  · rw [hpuddles']
    refine ⟨fun hq => ⟨hq, ?_⟩, And.left⟩
    obtain ⟨before, hinit⟩ := hin q hq
    change ((pool.clearPuddles none pool.puddles).puddleAt q).freeChain ≠ []
    rw [hinit]
    exact List.cons_ne_nil _ _
  · change pool.puddles.head? = some q at hq
    obtain ⟨rest, hrest⟩ := List.head?_eq_some_iff.1 hq
    have hfirst : BackLinked (pool.clearPuddles none pool.puddles).prevAvailable none
        (q :: rest) := hrest ▸ hlinks
    exact hfirst.1
  · rw [hpuddles'] at hq
    exact absurd hq hna

end J9Pool

theorem poolNew_eq {args : PoolArgs} {fuel memory : ℕ} {pool : J9Pool}
    (hnew : poolNew args fuel memory = some pool) :
    pool.alignment = args.alignment % 2 ^ 16 ∧ pool.puddles = [memory] ∧
      pool.available = [memory] ∧ pool.numElements = 0 ∧
      pool.puddleAt memory = pool.puddleInit memory none := by
  unfold poolNew at hnew
  split at hnew
  · cases hnew
  split at hnew
  · cases hnew
  split at hnew
  · cases hnew
  cases hnew
  exact ⟨rfl, rfl, rfl, rfl, Function.update_self ..⟩

theorem poolNew_spec {args : PoolArgs} (h : args.Sized) {fuel memory : ℕ} {pool : J9Pool}
    (hmem : mallocAlignment ∣ memory) (hnew : poolNew args fuel memory = some pool) :
    pool.Represents [] ∧ pool.Linked ∧ pool.alignment = args.alignment := by
  obtain ⟨halign, hpuddles, havail, hnum, hinit⟩ := poolNew_eq hnew
  have hshape := poolNew_wellShaped h hnew
  refine ⟨⟨hshape, ?_, ?_, ?_, ?_, ?_, List.nodup_nil, fun e => ?_, ?_, fun q => ?_⟩,
    ⟨fun q hq => ?_, fun _ => ?_, fun q hq hna => ?_⟩,
    halign.trans (Nat.mod_eq_of_lt h.alignment_lt)⟩
  · simp [hpuddles]
  · simpa [hpuddles] using hmem
  · simp [hpuddles]
  · simpa [hpuddles, hinit] using PuddleShape.described_init hshape memory none
  · simp [hpuddles, hinit, hnum, PuddleShape.puddleInit]
  · simp [hpuddles, hinit, PuddleShape.not_holds_init]
  · simp [havail]
  · rw [havail, hpuddles, List.mem_singleton, and_iff_left_of_imp]
    rintro rfl
    rw [hinit]
    exact List.cons_ne_nil _ _
  · rw [havail] at hq
    cases hq
    simp [J9Pool.prevAvailable, hinit, PuddleShape.puddleInit]
  · rw [havail]
    exact ⟨by simp [J9Pool.prevAvailable, hinit, PuddleShape.puddleInit], trivial⟩
  · rw [havail] at hna
    rw [hpuddles] at hq
    exact absurd hq hna

/-- A pool and the elements that its clients hold, after a run of operations. Memory for
new puddles is given out as `memAlloc` does, and only live elements are removed;
`mayLose` says whether a removal may be one that loses a slot. -/
inductive Reaches (args : PoolArgs) (mayLose : Bool) : J9Pool → List ℕ → Prop
  | poolNew {fuel memory pool} : mallocAlignment ∣ memory →
      poolNew args fuel memory = some pool → Reaches args mayLose pool []
  | newElement {pool pool' live memory element} : Reaches args mayLose pool live →
      pool.Fresh memory → pool.newElement memory = some (pool', element) →
      Reaches args mayLose pool' (element :: live)
  | removeElement {pool pool' live element} : Reaches args mayLose pool live →
      element ∈ live → (mayLose = false → ¬pool.LosesSlot) →
      pool.removeElement element = some pool' → Reaches args mayLose pool' (live.erase element)
  | ensureCapacity {pool pool' live newCapacity memory} : Reaches args mayLose pool live →
      pool.FreshAll memory → pool.ensureCapacity newCapacity memory = some pool' →
      Reaches args mayLose pool' live
  | clear {pool live} : Reaches args mayLose pool live → Reaches args mayLose pool.clear []

theorem Reaches.spec {args : PoolArgs} (h : args.Sized) {pool : J9Pool} {live : List ℕ}
    (hr : Reaches args false pool live) :
    pool.Represents live ∧ pool.Linked ∧ pool.alignment = args.alignment := by
  induction hr with
  | poolNew hmem hnew => exact poolNew_spec h hmem hnew
  | newElement _ hf hnew ih =>
    obtain ⟨pool₁, element, hnew', h₁, hl₁, hshape, -⟩ := J9Pool.newElement_spec ih.1 ih.2.1 hf
    cases hnew.symm.trans hnew'
    exact ⟨h₁, hl₁, hshape ▸ ih.2.2⟩
  | removeElement _ he hroom hrem ih =>
    obtain ⟨pool₁, hrem', h₁, hl₁, hshape⟩ :=
      J9Pool.removeElement_spec ih.1 ih.2.1 he (hroom rfl)
    cases hrem.symm.trans hrem'
    exact ⟨h₁, hl₁, hshape ▸ ih.2.2⟩
  | ensureCapacity _ hf hcap ih =>
    obtain ⟨h₁, hl₁, hshape⟩ := J9Pool.ensureCapacity_spec ih.1 ih.2.1 hf hcap
    exact ⟨h₁, hl₁, hshape ▸ ih.2.2⟩
  | clear _ ih =>
    obtain ⟨h₁, hl₁, hshape⟩ := J9Pool.clear_spec ih.1
    exact ⟨h₁, hl₁, hshape ▸ ih.2.2⟩

/-- In every run on a pool whose layout was computed without wrapping, and in which no
removal loses a slot, the pool describes the live elements: chain, bitmap and counter of
each puddle agree, `numElements` is the total of the counters and the available puddles
are those with a free slot. The live elements are aligned and pairwise disjoint, and
`pool_newElement` always gives another such element. -/
theorem reaches_represents {args : PoolArgs} (h : args.Sized) {pool : J9Pool} {live : List ℕ}
    (hr : Reaches args false pool live) :
    pool.Represents live ∧
    (∀ x ∈ live, args.alignment ∣ x) ∧
    (∀ x ∈ live, ∀ y ∈ live, x ≠ y → (pool.bytesOfElement x).Apart (pool.bytesOfElement y)) ∧
    ∀ memory, pool.Fresh memory → ∃ pool' element,
      pool.newElement memory = some (pool', element) ∧ args.alignment ∣ element ∧
        element ∉ live ∧
        ∀ x ∈ live, (pool.bytesOfElement element).Apart (pool.bytesOfElement x) := by
  obtain ⟨hrep, hlinked, halign⟩ := hr.spec h
  refine ⟨hrep, fun x hx => ?_, fun x hx y hy => hrep.live_apart hx hy, fun memory hf => ?_⟩
  · obtain ⟨puddle, -, slot, -, -, rfl⟩ := (hrep.mem_live x).1 hx
    exact halign ▸ hrep.shape.elementAddress_dvd puddle slot
  · obtain ⟨pool', element, hnew, -, -, -, hdvd, hnot, hap⟩ :=
      J9Pool.newElement_spec hrep hlinked hf
    exact ⟨pool', element, hnew, halign ▸ hdvd, hnot, hap⟩

/-- Elements of 20 bytes in puddles of two slots. -/
def twoSlotPool : PoolArgs := ⟨20, 2, 0, false, false⟩

/-- Three elements are taken, the last one from a second puddle, and the second one is
given back. -/
theorem reaches_represents_twoSlotPool : twoSlotPool.Sized ∧ ∃ pool,
    Reaches twoSlotPool false pool [8264, 4168] ∧ pool.Represents [8264, 4168] := by
  have hsized : twoSlotPool.Sized := by decide
  have hnew : poolNew twoSlotPool 1 4096 = some (twoSlotPool.firstPool 120 2 4096) := by
    unfold poolNew
    rw [show twoSlotPool.layoutLoop 1 _ = some (120, 2) by decide]
    rfl
  have h₀ := @Reaches.poolNew twoSlotPool false _ _ _ (by decide) hnew
  have h₁ := @Reaches.newElement _ _ _ _ _ 8192 _ h₀ ⟨by decide, by decide⟩ rfl
  have h₂ := @Reaches.newElement _ _ _ _ _ 8192 _ h₁ ⟨by decide, by decide⟩ rfl
  have h₃ := @Reaches.newElement _ _ _ _ _ 8192 _ h₂ ⟨by decide, by decide⟩ rfl
  have h₄ := @Reaches.removeElement _ _ _ _ _ 4192 h₃ (by decide) (fun _ => by decide) rfl
  exact ⟨hsized, _, h₄, (reaches_represents hsized h₄).1⟩

/-- The smallest pool of the tests: one element of one byte. -/
def verySmallPool : PoolArgs := ⟨1, 1, 8, false, false⟩

/-- The only element is taken and given back: its puddle has a free slot and is not
available. -/
theorem verySmallPool_loses_slot : verySmallPool.Sized ∧ ∃ pool live,
    Reaches verySmallPool true pool live ∧
      ∃ puddle ∈ pool.puddles, (pool.puddleAt puddle).freeChain ≠ [] ∧
        puddle ∉ pool.available := by
  have hnew : poolNew verySmallPool 1 4096 = some (verySmallPool.firstPool 80 1 4096) := by
    unfold poolNew
    rw [show verySmallPool.layoutLoop 1 _ = some (80, 1) by decide]
    rfl
  have h₀ := @Reaches.poolNew verySmallPool true _ _ _ (by decide) hnew
  have h₁ := @Reaches.newElement _ _ _ _ _ 8192 _ h₀ ⟨by decide, by decide⟩ rfl
  have h₂ := @Reaches.removeElement _ _ _ _ _ 4168 h₁ (by decide) (fun h => nomatch h) rfl
  exact ⟨by decide, _, _, h₂, 4096, by decide, by decide, by decide⟩

end OMR.Util.Pool
