import OMR.GC.PoolTransitions

/-!
# Free lists in memory

The free entries of a pool are linked by the headers at their bases. Memory is what it holds of
headers: a write destroys every header that reaches into the bytes it covers. A list of entries
is `Linked` in memory when each entry has its header there, with its size and a link to the next
one. `none` is the use of a pointer that is `NULL` or leads to no header, or a failed assertion.
-/

namespace OMR.GC

open OMR.Lib

/-- `MM_HeapLinkedFreeHeader`. -/
structure FreeHeader where
  next : Option ℕ
  size : ℕ
deriving DecidableEq, Repr

/-- The headers in memory, by address. -/
abbrev Headers := ℕ → Option FreeHeader

namespace Headers

/-- The bytes `[base, base + size)` are written. -/
def clobber (base size : ℕ) (m : Headers) : Headers := fun a =>
  if 0 < size ∧ a < base + size ∧ base < a + sizeofFreeHeader then none else m a

/-- `fillWithHoles`, and whether it returns a header. -/
def fillWithHoles (addrBase freeEntrySize : ℕ) (m : Headers) : Headers × Bool :=
  if freeEntrySize < sizeofFreeHeader then (m.clobber addrBase freeEntrySize, false)
  else (Function.update (m.clobber addrBase sizeofFreeHeader) addrBase (some ⟨none, freeEntrySize⟩),
    true)

/-- `setNext`. -/
def setNext (entry : ℕ) (next : Option ℕ) (m : Headers) : Option Headers :=
  (m entry).map fun header => Function.update m entry (some { header with next := next })

/-- `if (previousFreeEntry) previousFreeEntry->setNext(next)`. -/
def link (previousFreeEntry next : Option ℕ) (m : Headers) : Option Headers :=
  match previousFreeEntry with
  | none => some m
  | some previousFreeEntry => m.setNext previousFreeEntry next

/-- `createFreeEntry` of a pool, and whether there is an entry. -/
def createFreeEntry (minimumFreeEntrySize addrBase addrTop : ℕ)
    (previousFreeEntry nextFreeEntry : Option ℕ) (m : Headers) : Option (Headers × Bool) :=
  if addrTop < addrBase then none
  else
    let filled := m.fillWithHoles addrBase (addrTop - addrBase)
    if filled.2 ∧ minimumFreeEntrySize ≤ addrTop - addrBase then
      if ∃ next ∈ nextFreeEntry, next ≤ addrBase then none
      else
        (filled.1.setNext addrBase nextFreeEntry).bind fun m =>
          (m.link previousFreeEntry (some addrBase)).map fun m => (m, true)
    else (filled.1.link previousFreeEntry nextFreeEntry).map fun m => (m, false)

end Headers

/-- The address of the first of some entries, or of what comes behind them. -/
def firstOf (after : Option ℕ) (l : List Extent) : Option ℕ := (l.head?.map Extent.base).or after

@[simp] theorem firstOf_nil (after : Option ℕ) : firstOf after [] = after := Option.none_or

@[simp] theorem firstOf_cons (after : Option ℕ) (e : Extent) (l : List Extent) :
    firstOf after (e :: l) = some e.base := rfl

theorem firstOf_append (after : Option ℕ) (l l' : List Extent) :
    firstOf after (l ++ l') = firstOf (firstOf after l') l := by
  cases l with
  | nil => rw [firstOf_nil, List.nil_append]
  | cons e l => rfl

/-- The address of the last of some entries. -/
def lastOf (l : List Extent) : Option ℕ := l.getLast?.map Extent.base

/-- Each entry has its header, the last one with the link `after`. -/
def Linked (m : Headers) (after : Option ℕ) : List Extent → Prop
  | [] => True
  | e :: l => m e.base = some ⟨firstOf after l, e.size⟩ ∧ Linked m after l

namespace Linked

variable {m m' : Headers} {after : Option ℕ} {l l' : List Extent} {e : Extent}

theorem congr (h : Linked m after l) (heq : ∀ e ∈ l, m' e.base = m e.base) : Linked m' after l := by
  induction l with
  | nil => trivial
  | cons e l ih =>
    constructor
    · rw [heq e List.mem_cons_self, h.1]
    · exact ih h.2 fun x hx => heq x (List.mem_cons_of_mem _ hx)

theorem append_iff : Linked m after (l ++ l') ↔
    Linked m (firstOf after l') l ∧ Linked m after l' := by
  induction l with
  | nil => exact (and_iff_right trivial).symm
  | cons e l ih =>
    change m e.base = some ⟨firstOf after (l ++ l'), e.size⟩ ∧ Linked m after (l ++ l') ↔
      (m e.base = some ⟨firstOf (firstOf after l') l, e.size⟩ ∧ _) ∧ _
    rw [ih, firstOf_append, and_assoc]

theorem header (h : Linked m after l) (he : e ∈ l) : ∃ next, m e.base = some ⟨next, e.size⟩ := by
  induction l with
  | nil => cases he
  | cons a l ih =>
    rcases List.mem_cons.1 he with rfl | he
    · exact ⟨_, h.1⟩
    · exact ih h.2 he

end Linked

/-- Entries that can be in memory at the same time: they hold their headers and do not overlap. -/
structure Entries (l : List Extent) : Prop where
  size_le : ∀ e ∈ l, sizeofFreeHeader ≤ e.size
  apart : l.Pairwise Extent.Apart

namespace Entries

variable {l l' : List Extent} {e : Extent}

theorem append_iff : Entries (l ++ l') ↔
    Entries l ∧ Entries l' ∧ ∀ a ∈ l, ∀ b ∈ l', a.Apart b := by
  constructor
  · rintro ⟨hsize, hapart⟩
    obtain ⟨hl, hl', hcross⟩ := List.pairwise_append.1 hapart
    exact ⟨⟨fun e he => hsize e (List.mem_append_left _ he), hl⟩,
      ⟨fun e he => hsize e (List.mem_append_right _ he), hl'⟩, hcross⟩
  · rintro ⟨hl, hl', hcross⟩
    refine ⟨fun e he => ?_, List.pairwise_append.2 ⟨hl.apart, hl'.apart, hcross⟩⟩
    rcases List.mem_append.1 he with he | he
    · exact hl.size_le e he
    · exact hl'.size_le e he

theorem perm (h : Entries l) (hperm : l.Perm l') : Entries l' :=
  ⟨fun e he => h.size_le e (hperm.mem_iff.2 he),
    (hperm.pairwise_iff fun hab => Extent.Apart.symm hab).1 h.apart⟩

theorem sublist (h : Entries l) (hsub : l'.Sublist l) : Entries l' :=
  ⟨fun e he => h.size_le e (hsub.subset he), h.apart.sublist hsub⟩

theorem base_ne {a b : Extent} (hab : a.Apart b) (ha : sizeofFreeHeader ≤ a.size)
    (hb : sizeofFreeHeader ≤ b.size) : a.base ≠ b.base := by
  simp only [Extent.Apart, Extent.top, sizeofFreeHeader] at hab ha hb
  omega

end Entries

namespace Headers

variable {m : Headers} {after next : Option ℕ} {kept : List Extent} {minimum base top : ℕ}

/-- A write leaves the headers of entries alone that are apart from it. -/
theorem clobber_of_apart {size : ℕ} {e : Extent} (he : sizeofFreeHeader ≤ e.size)
    (hapart : e.Apart ⟨base, size⟩) : m.clobber base size e.base = m e.base := by
  refine if_neg ?_
  simp only [Extent.Apart, Extent.top] at hapart
  omega

theorem fillWithHoles_of_apart {size : ℕ} {e : Extent} (he : sizeofFreeHeader ≤ e.size)
    (hapart : e.Apart ⟨base, size⟩) : (m.fillWithHoles base size).1 e.base = m e.base := by
  rw [fillWithHoles]
  split
  · exact clobber_of_apart he hapart
  · next hfits =>
    have hheader : e.Apart ⟨base, sizeofFreeHeader⟩ := by
      simp only [Extent.Apart, Extent.top] at hapart ⊢
      omega
    have hne : e.base ≠ base := Entries.base_ne hapart he (Nat.le_of_not_lt hfits)
    exact (Function.update_of_ne hne ..).trans (clobber_of_apart he hheader)

/-- `previousFreeEntry` is the last entry, if there is one, and gets a new link. -/
theorem link_spec (hkept : Entries kept) (h : Linked m after kept) (next : Option ℕ) :
    ∃ m', m.link (lastOf kept) next = some m' ∧ Linked m' next kept ∧
      ∀ a, (∀ k ∈ kept, k.base ≠ a) → m' a = m a := by
  rcases List.eq_nil_or_concat kept with rfl | ⟨front, k, rfl⟩
  · exact ⟨m, rfl, trivial, fun _ _ => rfl⟩
  rw [List.concat_eq_append] at hkept h ⊢
  obtain ⟨hfront, hlast, -⟩ := Linked.append_iff.1 h
  obtain ⟨hentries, hk, hcross⟩ := Entries.append_iff.1 hkept
  have hlastOf : lastOf (front ++ [k]) = some k.base := by
    rw [lastOf, List.getLast?_concat, Option.map_some]
  have hne : ∀ e ∈ front, e.base ≠ k.base := fun e he =>
    Entries.base_ne (hcross e he k (List.mem_singleton_self k)) (hentries.size_le e he)
      (hk.size_le k (List.mem_singleton_self k))
  refine ⟨Function.update m k.base (some ⟨next, k.size⟩), ?_, ?_, fun a ha => ?_⟩
  · rw [hlastOf, link, setNext, hlast, Option.map_some]
  · refine Linked.append_iff.2 ⟨?_, ?_, trivial⟩
    · exact hfront.congr fun e he => Function.update_of_ne (hne e he) ..
    · exact Function.update_self ..
  · exact Function.update_of_ne (ha k (by simp)).symm ..

/-- The range becomes an entry behind those that are kept, if it is large enough. -/
theorem createFreeEntry_spec (hkept : Entries kept) (h : Linked m after kept) (hle : base ≤ top)
    (hapart : ∀ e ∈ kept, e.Apart ⟨base, top - base⟩) (hnext : ∀ n ∈ next, base < n) :
    ∃ m', m.createFreeEntry minimum base top (lastOf kept) next =
        some (m', (freeEntryIn minimum base top).isSome) ∧
      Linked m' next (kept ++ (freeEntryIn minimum base top).toList) ∧
      ∀ e : Extent, sizeofFreeHeader ≤ e.size → e.Apart ⟨base, top - base⟩ →
        (∀ k ∈ kept, k.base ≠ e.base) → m' e.base = m e.base := by
  have hframe : ∀ e : Extent, sizeofFreeHeader ≤ e.size → e.Apart ⟨base, top - base⟩ →
      (m.fillWithHoles base (top - base)).1 e.base = m e.base :=
    fun e he hapart => fillWithHoles_of_apart he hapart
  have hlinked : Linked (m.fillWithHoles base (top - base)).1 after kept :=
    h.congr fun e he => hframe e (hkept.size_le e he) (hapart e he)
  have hnot : ¬∃ n ∈ next, n ≤ base := by
    rintro ⟨n, hn, hle⟩
    have := hnext n hn
    omega
  rw [createFreeEntry, if_neg (by omega)]
  simp only []
  by_cases hfits : sizeofFreeHeader ≤ top - base ∧ minimum ≤ top - base
  · have hentry : freeEntryIn minimum base top = some ⟨base, top - base⟩ := if_pos hfits
    have hfilled : m.fillWithHoles base (top - base) =
        (Function.update (m.clobber base sizeofFreeHeader) base (some ⟨none, top - base⟩), true) :=
      if_neg (by omega)
    rw [hentry]
    have hcreate : (m.fillWithHoles base (top - base)).2 = true ∧ minimum ≤ top - base :=
      ⟨by rw [hfilled], hfits.2⟩
    rw [if_pos hcreate, if_neg hnot]
    -- The new header gets its link, and the entry before it the link to the new one.
    let made : Headers := Function.update (m.fillWithHoles base (top - base)).1 base
      (some ⟨next, top - base⟩)
    have hset : (m.fillWithHoles base (top - base)).1.setNext base next = some made := by
      have hheader : (m.fillWithHoles base (top - base)).1 base = some ⟨none, top - base⟩ := by
        rw [hfilled]
        exact Function.update_self ..
      rw [setNext, hheader, Option.map_some]
    have hbase : ∀ e : Extent, sizeofFreeHeader ≤ e.size → e.Apart ⟨base, top - base⟩ →
        e.base ≠ base := fun e he hap => Entries.base_ne hap he hfits.1
    have hmade : Linked made after kept := hlinked.congr fun e he =>
      Function.update_of_ne (hbase e (hkept.size_le e he) (hapart e he)) ..
    obtain ⟨m', hlink, hkept', hother⟩ := link_spec hkept hmade (some base)
    refine ⟨m', ?_, ?_, fun e he hap hne => ?_⟩
    · rw [hset, Option.bind_some, hlink]
      rfl
    · refine Linked.append_iff.2 ⟨hkept', ?_, trivial⟩
      have hfree : ∀ k ∈ kept, k.base ≠ base := fun k hk =>
        hbase k (hkept.size_le k hk) (hapart k hk)
      rw [hother base hfree]
      exact Function.update_self ..
    · rw [hother e.base hne]
      exact (Function.update_of_ne (hbase e he hap) ..).trans (hframe e he hap)
  · have hentry : freeEntryIn minimum base top = none := if_neg hfits
    have hnocreate : ¬((m.fillWithHoles base (top - base)).2 = true ∧ minimum ≤ top - base) := by
      rintro ⟨hmade, hmin⟩
      rw [fillWithHoles] at hmade
      split at hmade
      · exact Bool.false_ne_true hmade
      · exact hfits ⟨by omega, hmin⟩
    rw [if_neg hnocreate, hentry, Option.toList_none, List.append_nil]
    obtain ⟨m', hlink, hkept', hother⟩ := link_spec hkept hlinked next
    refine ⟨m', ?_, hkept', fun e he hap hne => ?_⟩
    · rw [hlink]
      rfl
    · rw [hother e.base hne, hframe e he hap]

end Headers

end OMR.GC
