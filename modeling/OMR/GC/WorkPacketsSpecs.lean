import OMR.GC.WorkPacketsSteps

/-!
# Specifications of the code of `MM_WorkPackets`

What each function does to the view of the thread that runs it. A function that gets a packet
gives a packet that the thread did not hold, with contents as they can be expected of it.
-/

namespace OMR.GC.PacketCode

open OMR.Lib Program WorkPackets Sharing

variable {P T I : Type} [DecidableEq P] [Fintype T]
  {overflow : WorkPacketOverflow I} {cfg : PacketConfig T} {t : T} {p : P} {items : List I}
  {name : PacketListName} {x y : PacketView P I} {ok ok' : List I → Prop} {A : Type}

variable [DecidableEq T]

section LeastFull

variable {temps : List P} {selected : Option ℕ} {requiredSlots : ℕ}

/-- The packets of a search: they have been got, and the selected one has room. -/
structure Searched (x : PacketView P I) (requiredSlots : ℕ) (temps : List P)
    (selected : Option ℕ) (y : PacketView P I) : Prop where
  nodup : temps.Nodup
  frame : y = { x with contents := y.contents }
  apart : ∀ q, q ∉ temps → y.contents q = x.contents q
  taken : ∀ q ∈ temps, x.contents q = none ∧ ∃ items, y.contents q = some items
  selected : ∀ i, selected = some i → ∃ p items, temps.reverse[i]? = some p ∧
    y.contents p = some items ∧ items.length + requiredSlots ≤ slotsInPacket

omit [DecidableEq P] in
theorem Searched.nil : Searched x requiredSlots [] none x :=
  ⟨List.nodup_nil, rfl, fun _ _ => rfl, nofun, nofun⟩

theorem Searched.cons (h : Searched x requiredSlots temps selected y)
    (hnew : y.contents p = none) (items : List I) :
    Searched x requiredSlots (p :: temps) selected (y.take p items) := by
  have hp : p ∉ temps := by
    intro hmem
    obtain ⟨-, items', hitems'⟩ := h.taken p hmem
    cases hnew.symm.trans hitems'
  refine ⟨List.nodup_cons.2 ⟨hp, h.nodup⟩, ?_, fun q hq => ?_, fun q hq => ?_, fun i hi => ?_⟩
  · rw [h.frame]
    rfl
  · rw [List.mem_cons, not_or] at hq
    obtain ⟨hne, hq⟩ := hq
    exact (Function.update_of_ne hne ..).trans (h.apart q hq)
  · rcases List.mem_cons.1 hq with rfl | htemps
    · exact ⟨(h.apart q hp).symm.trans hnew, items, y.take_contents q items⟩
    · obtain ⟨hx, items', hitems'⟩ := h.taken q htemps
      refine ⟨hx, items', (Function.update_of_ne ?_ ..).trans hitems'⟩
      rintro rfl
      exact hp htemps
  · obtain ⟨q, items', hq, hitems', hroom⟩ := h.selected i hi
    refine ⟨q, items', ?_, (Function.update_of_ne ?_ ..).trans hitems', hroom⟩
    · rw [List.reverse_cons, List.getElem?_append_left (List.getElem?_eq_some_iff.1 hq).1]
      exact hq
    · rintro rfl
      exact hp (List.mem_reverse.1 (List.mem_of_getElem? hq))

omit [DecidableEq P] in
/-- The packet that has just been got is selected. -/
theorem Searched.select (h : Searched x requiredSlots (p :: temps) selected y)
    (hp : y.contents p = some items) (hroom : items.length + requiredSlots ≤ slotsInPacket) :
    Searched x requiredSlots (p :: temps) (some temps.length) y := by
  refine ⟨h.nodup, h.frame, h.apart, h.taken, ?_⟩
  rintro i ⟨⟩
  exact ⟨p, items, by simp, hp, hroom⟩

/-- The packets of a search that were not selected. -/
def others (selected : Option ℕ) : List P → List P
  | [] => []
  | p :: temps => if selected = some temps.length then others selected temps
    else p :: others selected temps

end LeastFull

end OMR.GC.PacketCode
