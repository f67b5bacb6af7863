import OMR.GC.WorkPacketsInvariant

/-!
# The actions on the work packets

Each action of a thread keeps the invariant and the views of the other threads, and changes
the thread's own view in a known way.
-/

namespace OMR.GC.WorkPackets

open OMR.Lib

variable {P T I : Type} [DecidableEq P] [DecidableEq T] [Fintype T]
  {overflow : WorkPacketOverflow I} {cfg : PacketConfig T} {w w' : WorkPackets P T I overflow}
  {t : T} {p : P} {items : List I} {name : PacketListName}

/-- What getting a packet comes to: nothing, or one more packet with `ok` contents. -/
def Gets (x : PacketView P I) (ok : List I → Prop) (result : Option P) (y : PacketView P I) :
    Prop :=
  result = none ∧ y = x ∨
    ∃ p items, result = some p ∧ x.contents p = none ∧ ok items ∧ y = x.take p items

theorem Gets.mono {x y : PacketView P I} {ok ok' : List I → Prop} {result : Option P}
    (h : Gets x ok result y) (hok : ∀ items, ok items → ok' items) : Gets x ok' result y := by
  rcases h with hnone | ⟨p, items, hresult, hnew, hitems, hy⟩
  · exact .inl hnone
  · exact .inr ⟨p, items, hresult, hnew, hok items hitems, hy⟩

omit [DecidableEq T] [Fintype T] in
theorem declaresSafely_of_eq (h : w'.inputListDoneIndex = w.inputListDoneIndex) : DeclaresSafely cfg w w' :=
  fun hne => absurd h hne

omit [DecidableEq T] in
/-- Nothing happens. -/
theorem Inv.stay (h : Inv cfg w) : (sharing overflow cfg).Safe t w w :=
  ⟨h, declaresSafely_of_eq rfl, fun _ _ => rfl⟩

section Lists

theorem Fresh.tail {block : List P} {forge : List (Option (List P))} {packets : Finset P}
    (h : Fresh (some block :: forge) packets) :
    Fresh forge (packets ∪ block.toFinset) := by
  have hnodup : (block ++ forgePackets forge).Nodup := h.nodup
  refine ⟨(List.nodup_append'.1 hnodup).2.1, fun p hp => ?_⟩
  rw [Finset.mem_union, List.mem_toFinset, not_or]
  exact ⟨h.unused p (List.mem_append_right _ hp), fun hblock =>
    (List.nodup_append'.1 hnodup).2.2 hblock hp⟩

end Lists

section Contents

end Contents

section Monitor

variable {doneIndex : ℕ}

omit [DecidableEq P] in
/-- A waiting thread leaves, for the current done index or because it has moved. -/
theorem Counted.leave (h : Counted w.inputListWaitCount w.inputListDoneIndex w.readIndex w.waitingIn
      w.nullReturns) (hwaiting : w.waitingIn t = some doneIndex)
    (hread : w.readIndex t = doneIndex) :
    Counted (w.leave t doneIndex).2.inputListWaitCount w.inputListDoneIndex w.readIndex
      (Function.update w.waitingIn t none) (w.leave t doneIndex).2.nullReturns := by
  have hupdate := threadCount_update (fun d => d == some w.inputListDoneIndex) w.waitingIn t none
  have hle : ∀ t' d, Function.update w.waitingIn t none t' = some d → d ≤ w.inputListDoneIndex := by
    intro t' d
    rw [Function.update_apply]
    split
    · exact nofun
    · exact h.waitingIn_le t' d
  rw [WorkPackets.leave]
  by_cases hdone : w.inputListDoneIndex = doneIndex
  · rw [if_neg (not_not.2 hdone)]
    refine ⟨?_, hle, h.readIndex_le, h.nullReturns_lt⟩
    simp [hwaiting, hdone] at hupdate
    have hcount := h.count
    simp only [hdone] at hcount ⊢
    omega
  · rw [if_pos hdone]
    refine ⟨?_, hle, h.readIndex_le, List.forall_mem_cons.2 ⟨?_, h.nullReturns_lt⟩⟩
    · have hcount := h.count
      simp [hwaiting, beq_eq_false_iff_ne.2 (Ne.symm hdone)] at hupdate
      exact hcount.trans hupdate.symm
    · exact lt_of_le_of_ne (hread ▸ h.readIndex_le t) (Ne.symm hdone)

end Monitor

end OMR.GC.WorkPackets
