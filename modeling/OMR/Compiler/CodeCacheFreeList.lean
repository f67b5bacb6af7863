import OMR.Compiler.CodeCache

/-!
# Adding a block to the free list of a code cache

`Added` describes what the insertion can do: the freed range becomes a block of
its own or takes the block before it, the one behind it or both with it, with the
few bytes between them. Everything else about the list follows from that.
-/

namespace OMR.Compiler.CodeCache

open OMR.Lib

/-- The neighbours that the freed range `[start, stop)` takes with it, and the
block that comes out. -/
inductive Fused (c : CodeCache) (start stop : ℕ) : List Extent → Extent → Prop
  | none : Fused c start stop [] ⟨start, stop - start⟩
  | next {n : Extent} (hlt : start < n.base) (hclose : closeTo n.base stop)
      (hside : ¬ c.acrossBorder start n.base) : Fused c start stop [n] ⟨start, n.top - start⟩
  | previous {p : Extent} (hlt : p.base < start) (hclose : closeTo start p.top)
      (hside : ¬ c.acrossBorder p.base start) : Fused c start stop [p] ⟨p.base, stop - p.base⟩
  | both {p n : Extent} (hplt : p.base < start) (hpclose : closeTo start p.top)
      (hpside : ¬ c.acrossBorder p.base start) (hlt : start < n.base) (hclose : closeTo n.base stop)
      (hside : ¬ c.acrossBorder start n.base) :
      Fused c start stop [p, n] ⟨p.base, n.top - p.base⟩

/-- The list `l` becomes `l'`, with the new block `link`. -/
def Added (c : CodeCache) (start stop : ℕ) (l l' : List Extent) (link : Extent) : Prop :=
  ∃ xs mid ys, l = xs ++ (mid ++ ys) ∧ l' = xs ++ (link :: ys) ∧ Fused c start stop mid link ∧
    (∀ a ∈ xs, a.base < start) ∧ ∀ b ∈ ys, start < b.base

section Insert

variable {c : CodeCache} {start stop : ℕ} {curr : Extent} {next l : List Extent}

/-- The blocks after one that is not below an address are above it. -/
theorem base_lt_of_ordered {e : Extent} (h : AddressOrdered (e :: l)) {x : ℕ} (hx : x ≤ e.base)
    {b : Extent} (hb : b ∈ l) : x < b.base := by
  obtain ⟨hpos, -, hel⟩ := AddressOrdered.cons_iff.1 h
  have := hel b hb
  simp only [Extent.top] at this
  omega

/-- What happens at the block where the loop stops. -/
theorem addFreeBlockAt_added (h : AddressOrdered (curr :: next)) (hne : curr.base ≠ start)
    (hapart : start < curr.base → stop ≤ curr.base) (hnext : ∀ n ∈ next.head?, start < n.base) :
    Added c start stop (curr :: next) (c.addFreeBlockAt start stop curr next).1
      (c.addFreeBlockAt start stop curr next).2 := by
  have hcurr := (AddressOrdered.cons_iff.1 h).1
  have htop : curr.top = curr.base + curr.size := rfl
  have hall : ∀ b ∈ next, start < b.base := by
    cases next with
    | nil => simp
    | cons n rest =>
      intro b hb
      have hn := hnext n (by simp)
      rcases List.mem_cons.1 hb with rfl | hb
      · exact hn
      · exact base_lt_of_ordered (AddressOrdered.cons_iff.1 h).2.1 hn.le hb
  -- the freed range stays alone
  have hunmerged : ∀ r : List Extent × Extent, r =
      (if start < curr.base then ((⟨start, stop - start⟩ : Extent) :: curr :: next,
        (⟨start, stop - start⟩ : Extent)) else (curr :: ⟨start, stop - start⟩ :: next,
          ⟨start, stop - start⟩)) → Added c start stop (curr :: next) r.1 r.2 := by
    rintro r rfl
    split_ifs with hlt
    · refine ⟨[], [], curr :: next, rfl, rfl, .none, by simp, ?_⟩
      intro b hb
      rcases List.mem_cons.1 hb with rfl | hb
      · exact hlt
      · exact hall b hb
    · exact ⟨[curr], [], next, rfl, rfl, .none, by simp; omega, hall⟩
  -- it takes at most the block in front of it
  have hprevious : ∀ r : List Extent × Extent, r =
      (if curr.base < start ∧ closeTo start curr.top then
        if ¬ c.acrossBorder curr.base start then
          ((⟨curr.base, stop - curr.base⟩ : Extent) :: next, (⟨curr.base, stop - curr.base⟩ : Extent))
        else (if start < curr.base then ((⟨start, stop - start⟩ : Extent) :: curr :: next,
          (⟨start, stop - start⟩ : Extent)) else (curr :: ⟨start, stop - start⟩ :: next,
            ⟨start, stop - start⟩))
      else (if start < curr.base then ((⟨start, stop - start⟩ : Extent) :: curr :: next,
        (⟨start, stop - start⟩ : Extent)) else (curr :: ⟨start, stop - start⟩ :: next,
          ⟨start, stop - start⟩))) → Added c start stop (curr :: next) r.1 r.2 := by
    rintro r rfl
    by_cases hclose : curr.base < start ∧ closeTo start curr.top
    · rw [if_pos hclose]
      by_cases hside : ¬ c.acrossBorder curr.base start
      · rw [if_pos hside]
        exact ⟨[], [curr], next, rfl, rfl, .previous hclose.1 hclose.2 hside, by simp, hall⟩
      · rw [if_neg hside]
        exact hunmerged _ rfl
    · rw [if_neg hclose]
      exact hunmerged _ rfl
  simp only [addFreeBlockAt]
  by_cases hfirst : start < curr.base ∧ closeTo curr.base stop
  · simp only [if_pos hfirst]
    by_cases hside : ¬ c.acrossBorder start curr.base
    · simp only [if_pos hside]
      exact ⟨[], [curr], next, rfl, rfl, .next hfirst.1 hfirst.2 hside, by simp, hall⟩
    · simp only [if_neg hside]
      exact hunmerged _ rfl
  · simp only [if_neg hfirst]
    cases next with
    | nil => exact hprevious _ rfl
    | cons n rest =>
      obtain ⟨hnpos, -, hnrest⟩ := AddressOrdered.cons_iff.1 (AddressOrdered.cons_iff.1 h).2.1
      have hn := hall n (by simp)
      have hcn := (AddressOrdered.cons_iff.1 h).2.2 n (by simp)
      have hrest : ∀ b ∈ rest, start < b.base := fun b hb => hall b (by simp [hb])
      dsimp only
      by_cases hclose : closeTo n.base stop ∧ ¬ c.acrossBorder start n.base
      · rw [if_pos hclose]
        -- a block above the freed range would be closer to it than the next one
        have hbelow : curr.base < start := by
          by_contra hnot
          obtain ⟨⟨hle, hlt⟩, -⟩ := hclose
          have hstart : start < curr.base := by omega
          exact hfirst ⟨hstart, hapart hstart, by rw [freeCacheBlockBytes] at *; omega⟩
        by_cases hboth : closeTo start curr.top ∧ ¬ c.acrossBorder curr.base start
        · rw [if_pos hboth]
          exact ⟨[], [curr, n], rest, rfl, rfl,
            .both hbelow hboth.1 hboth.2 hn hclose.1 hclose.2, by simp, hrest⟩
        · rw [if_neg hboth]
          exact ⟨[curr], [n], rest, rfl, rfl, .next hn hclose.1 hclose.2, by simpa using hbelow, hrest⟩
      · rw [if_neg hclose]
        exact hprevious _ rfl

/-- The insertion into the whole list. -/
theorem insertFreeBlock_added (h : AddressOrdered l) (hstop : start < stop)
    (hapart : ∀ e ∈ l, e.Apart ⟨start, stop - start⟩) :
    Added c start stop l (c.insertFreeBlock start stop l).1 (c.insertFreeBlock start stop l).2 := by
  have hfacts : ∀ e ∈ l, e.base ≠ start ∧ (start < e.base → stop ≤ e.base) := by
    intro e he
    have hpos := h.size_pos e he
    have hap := hapart e he
    simp only [Extent.Apart, Extent.top] at hap
    omega
  induction l with
  | nil => exact ⟨[], [], [], rfl, rfl, .none, by simp, by simp⟩
  | cons curr next ih =>
    obtain ⟨hne, hcurr⟩ := hfacts curr (by simp)
    cases next with
    | nil =>
      rw [insertFreeBlock]
      exact addFreeBlockAt_added h hne hcurr (by simp)
    | cons n rest =>
      have htail : AddressOrdered (n :: rest) := (AddressOrdered.cons_iff.1 h).2.1
      rw [insertFreeBlock]
      by_cases hlt : n.base < start
      · simp only [if_pos hlt]
        obtain ⟨xs, mid, ys, hl, hl', hfused, hxs, hys⟩ := ih htail
          (fun e he => hapart e (by simp [he])) fun e he => hfacts e (by simp [he])
        refine ⟨curr :: xs, mid, ys, by rw [hl]; rfl, by rw [hl']; rfl, hfused, ?_, hys⟩
        intro a ha
        rcases List.mem_cons.1 ha with rfl | ha
        · have hpos := (AddressOrdered.cons_iff.1 h).1
          have := (AddressOrdered.cons_iff.1 h).2.2 n (by simp)
          simp only [Extent.top] at this
          omega
        · exact hxs a ha
      · simp only [if_neg hlt]
        refine addFreeBlockAt_added h hne hcurr fun m hm => ?_
        obtain rfl : n = m := Option.some.inj hm
        have := (hfacts n (by simp)).1
        omega

end Insert

/-- An extent below the warm border or above the cold one. -/
def OnSide (c : CodeCache) (e : Extent) : Prop :=
  e.top ≤ c.warmCodeAlloc ∨ c.coldCodeAlloc ≤ e.base

section Fusing

variable {c : CodeCache} {start stop : ℕ} {link x : Extent} {mid l l' : List Extent}

/-- The new block covers what it took and begins and ends with the freed range or
with one of the blocks that it took. -/
theorem Fused.covers (h : Fused c start stop mid link) (hstop : start < stop)
    (hpos : ∀ e ∈ mid, 0 < e.size) :
    (link.base ≤ start ∧ stop ≤ link.top) ∧ (∀ e ∈ mid, e.Within link) ∧
      (link.base = start ∨ ∃ e ∈ mid, link.base = e.base) ∧
      (link.top = stop ∨ ∃ e ∈ mid, link.top = e.top) := by
  cases h with
  | none => simp [Extent.top]; omega
  | @next n hlt hclose hside =>
    have hn := hpos n (by simp)
    have htop : (⟨start, n.top - start⟩ : Extent).top = n.top := by
      simp only [Extent.top]
      omega
    have hle : stop ≤ n.top := by
      simp only [Extent.top]
      exact hclose.1.trans (Nat.le_add_right _ _)
    refine ⟨⟨le_rfl, by rwa [htop]⟩, ?_, Or.inl rfl, Or.inr ⟨n, by simp, htop⟩⟩
    intro e he
    rw [List.mem_singleton.1 he]
    exact ⟨hlt.le, htop.ge⟩
  | @previous p hlt hclose hside =>
    have htop : (⟨p.base, stop - p.base⟩ : Extent).top = stop := by
      simp only [Extent.top]
      omega
    refine ⟨⟨hlt.le, htop.ge⟩, ?_, Or.inr ⟨p, by simp, rfl⟩, Or.inl htop⟩
    intro e he
    rw [List.mem_singleton.1 he]
    exact ⟨le_rfl, by rw [htop]; exact hclose.1.trans hstop.le⟩
  | @both p n hplt hpclose hpside hlt hclose hside =>
    have hn := hpos n (by simp)
    have htop : (⟨p.base, n.top - p.base⟩ : Extent).top = n.top := by
      simp only [Extent.top]
      omega
    have hle : stop ≤ n.top := by
      simp only [Extent.top]
      exact hclose.1.trans (Nat.le_add_right _ _)
    refine ⟨⟨hplt.le, by rwa [htop]⟩, ?_, Or.inr ⟨p, by simp, rfl⟩, Or.inr ⟨n, by simp, htop⟩⟩
    intro e he
    simp only [List.mem_cons, List.not_mem_nil, or_false] at he
    rcases he with rfl | rfl
    · exact ⟨le_rfl, by rw [htop]; exact (hpclose.1.trans hstop.le).trans hle⟩
    · exact ⟨hplt.le.trans hlt.le, htop.ge⟩

/-- A warm block is not merged with a cold one. -/
theorem Fused.onSide (h : Fused c start stop mid link) (hstop : start < stop)
    (hpos : ∀ e ∈ mid, 0 < e.size) (hmid : ∀ e ∈ mid, c.OnSide e)
    (hfresh : c.OnSide ⟨start, stop - start⟩) : c.OnSide link := by
  cases h with
  | none => exact hfresh
  | @next n hlt hclose hside =>
    have hn := hpos n (by simp)
    have hns := hmid n (by simp)
    simp only [OnSide, acrossBorder, Extent.top] at *
    omega
  | @previous p hlt hclose hside =>
    have hps := hmid p (by simp)
    have hp := hpos p (by simp)
    simp only [OnSide, acrossBorder, Extent.top] at *
    omega
  | @both p n hplt hpclose hpside hlt hclose hside =>
    have hn := hpos n (by simp)
    have hp := hpos p (by simp)
    have hns := hmid n (by simp)
    have hps := hmid p (by simp)
    simp only [OnSide, acrossBorder, Extent.top] at *
    omega

/-- The bytes between the freed range and the blocks that it takes are too few for
a block with a header. -/
theorem Fused.apart (h : Fused c start stop mid link) (hstop : start < stop)
    (hpos : ∀ e ∈ mid, 0 < e.size) (hx : methodHeaderBytes ≤ x.size)
    (hmid : ∀ e ∈ mid, e.Apart x) (hfresh : Extent.Apart ⟨start, stop - start⟩ x) :
    link.Apart x := by
  rw [methodHeaderBytes] at hx
  cases h with
  | none => exact hfresh
  | @next n hlt hclose hside =>
    have hn := hmid n (by simp)
    simp only [closeTo, freeCacheBlockBytes, Extent.Apart, Extent.top] at *
    omega
  | @previous p hlt hclose hside =>
    have hp := hmid p (by simp)
    simp only [closeTo, freeCacheBlockBytes, Extent.Apart, Extent.top] at *
    omega
  | @both p n hplt hpclose hpside hlt hclose hside =>
    have hn := hmid n (by simp)
    have hp := hmid p (by simp)
    simp only [closeTo, freeCacheBlockBytes, Extent.Apart, Extent.top] at *
    omega

variable (h : Added c start stop l l' link)
include h

theorem Added.mem {e : Extent} (he : e ∈ l') : e = link ∨ e ∈ l := by
  obtain ⟨xs, mid, ys, rfl, rfl, -, -, -⟩ := h
  simp only [List.mem_append, List.mem_cons] at he ⊢
  tauto

theorem Added.link_mem : link ∈ l' := by
  obtain ⟨xs, mid, ys, -, rfl, -, -, -⟩ := h
  simp

/-- The list stays in address order. -/
theorem Added.ordered (hl : AddressOrdered l) (hstop : start < stop)
    (hapart : ∀ e ∈ l, e.Apart ⟨start, stop - start⟩) : AddressOrdered l' := by
  obtain ⟨xs, mid, ys, rfl, rfl, hfused, hxs, hys⟩ := h
  obtain ⟨hx, hmy, hxmy⟩ := AddressOrdered.append_iff.1 hl
  obtain ⟨hm, hy, hmidys⟩ := AddressOrdered.append_iff.1 hmy
  obtain ⟨hcover, -, hbase, htop⟩ := hfused.covers hstop hm.size_pos
  have hfirst : ∀ a ∈ xs, a.top ≤ link.base := by
    intro a ha
    rcases hbase with hbase | ⟨e, he, hbase⟩
    · have hap := hapart a (by simp [ha])
      have hlt := hxs a ha
      simp only [Extent.Apart, Extent.top] at hap ⊢
      omega
    · rw [hbase]
      exact hxmy a ha e (by simp [he])
  have hlast : ∀ b ∈ ys, link.top ≤ b.base := by
    intro b hb
    rcases htop with htop | ⟨e, he, htop⟩
    · have hap := hapart b (by simp [hb])
      have hlt := hys b hb
      simp only [Extent.Apart, Extent.top] at hap htop ⊢
      omega
    · rw [htop]
      exact hmidys e he b hb
  refine AddressOrdered.append_iff.2 ⟨hx, AddressOrdered.cons_iff.2 ⟨?_, hy, hlast⟩, ?_⟩
  · simp only [Extent.top] at hcover
    omega
  · intro a ha b hb
    rcases List.mem_cons.1 hb with rfl | hb
    · exact hfirst a ha
    · exact hxmy a ha b (by simp [hb])

/-- The new block is the only one that the largest size has to be compared with,
among the blocks of any kind that the blocks taken share with it. -/
theorem Added.largestSize {p : Extent → Bool} (hstop : start < stop)
    (hpos : ∀ e ∈ l, 0 < e.size) (hp : ∀ e ∈ l, e.Within link → p e = p link) :
    largestSize (l'.filter p) =
      max (largestSize (l.filter p)) (if p link then link.size else 0) := by
  obtain ⟨xs, mid, ys, rfl, rfl, hfused, -, -⟩ := h
  obtain ⟨-, hwithin, -, -⟩ := hfused.covers hstop fun e he => hpos e (by simp [he])
  have hmid : largestSize (mid.filter p) ≤ if p link then link.size else 0 := by
    refine largestSize_le fun e he => ?_
    obtain ⟨he, hpe⟩ := List.mem_filter.1 he
    have hw := hwithin e he
    rw [← hp e (by simp [he]) hw, if_pos hpe]
    simp only [Extent.Within, Extent.top] at hw
    omega
  have hlink : largestSize ((link :: ys).filter p) =
      max (if p link then link.size else 0) (largestSize (ys.filter p)) := by
    by_cases hpl : p link
    · rw [List.filter_cons_of_pos hpl, largestSize_cons, if_pos hpl]
    · rw [List.filter_cons_of_neg hpl, if_neg hpl, Nat.zero_max]
  rw [List.filter_append, List.filter_append, List.filter_append, largestSize_append,
    largestSize_append, largestSize_append, hlink]
  omega

end Fusing

end OMR.Compiler.CodeCache
