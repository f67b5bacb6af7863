import Mathlib.Data.PNat.Defs
import OMR.Compiler.HashTabGrowth

/-!
# A hash table refines a map

The operations of the table are run beside those of a map from keys to data.
-/

namespace OMR.Compiler

open OMR.Lib

/-- The operations. The index that `updateData` and `replace` take is where `locate` found the
key; they are left out if it did not. -/
inductive TabOp (K D : Type*) where
  | add (key : K) (data : D)
  | locate (key : K)
  | updateData (key : K) (data : D)
  | replace (key : K) (data : D)
  | growTo (newSize : ℕ+)

variable {K D : Type*} [DecidableEq K]

namespace TabOp

/-- What the operation makes of a map. -/
def apply (m : K → Option D) : TabOp K D → K → Option D
  | add key data => if (m key).isNone then Function.update m key (some data) else m
  | locate _ => m
  | updateData key data => if (m key).isSome then Function.update m key (some data) else m
  | replace key data => if (m key).isSome then Function.update m key (some data) else m
  | growTo _ => m

/-- What the operation answers. -/
def answer (m : K → Option D) : TabOp K D → Bool
  | add key _ => (m key).isNone
  | locate key => (m key).isSome
  | updateData key _ => (m key).isSome
  | replace key _ => (m key).isSome
  | growTo _ => true

end TabOp

namespace HashTab

variable (calculateHash : K → ℕ) (depth : ℕ)

/-- An operation of the table, with its answer. -/
def perform (t : HashTab K D) : TabOp K D → Option (Bool × HashTab K D)
  | .add key data => t.add calculateHash depth key data
  | .locate key => (t.locate calculateHash key).map fun (found, _) => (found, t)
  | .updateData key data => (t.locate calculateHash key).bind fun (found, hashIndex) =>
    if found then (t.updateData hashIndex data).map fun t => (true, t) else some (false, t)
  | .replace key data => (t.locate calculateHash key).bind fun (found, hashIndex) =>
    if found then (t.replace key hashIndex data).map fun t => (true, t) else some (false, t)
  | .growTo newSize => (t.growTo calculateHash depth newSize).map fun t => (true, t)

/-- What can be observed of the table is the map, and no chain has a cycle or leaves the
table. -/
structure Refines (t : HashTab K D) (m : K → Option D) : Prop where
  locate_absent : ∀ key, m key = none → ∃ i, t.locate calculateHash key = some (false, i)
  locate_present : ∀ key data, m key = some data →
    ∃ i, t.locate calculateHash key = some (true, i) ∧ t.getData i = some data
  acyclic : ∀ b e, b ≤ t.closedAreaSize → t.table b = some e →
    ∃ rest, t.Linked (b :: rest) ∧ (b :: rest).Nodup ∧ ∀ i ∈ b :: rest, i < t.tableSize

variable {calculateHash} {t : HashTab K D} {lists : ℕ → List ℕ} {m : K → Option D}
  {keys : Finset K}

theorem Represents.refines (h : Represents calculateHash t lists m keys) :
    Refines calculateHash t m where
  locate_absent := by
    intro key hnone
    obtain ⟨i, hi, -⟩ := h.locate_of_notMem (h.contents_eq_none.1 hnone)
    exact ⟨i, hi⟩
  locate_present := by
    intro key data hdata
    have hkey : key ∈ keys := by
      by_contra hkey
      rw [h.contents_eq_none.2 hkey] at hdata
      cases hdata
    obtain ⟨i, data', hlocate, hi⟩ := h.locate_of_mem hkey
    refine ⟨i, hlocate, ?_⟩
    rw [(h.contents_eq key data').2 ⟨i, hi⟩] at hdata
    obtain ⟨chain, he⟩ := content_eq_some.1 hi
    rw [getData, h.deref_eq (h.content_bounds hi).2, he]
    exact hdata
  acyclic := by
    intro b e hb he
    obtain hnil | ⟨rest, hrest⟩ := h.head b
    · rw [h.table_eq_none hb hnil] at he
      cases he
    · refine ⟨rest, hrest ▸ h.linked b, hrest ▸ h.nodup b, fun i hi => ?_⟩
      exact (h.index_bounds (hrest ▸ hi)).2.trans h.nextFree_lt

variable {key : K} {data : D}

theorem Represents.perform_add (h : Represents calculateHash t lists m keys) :
    ∃ t' lists' keys', t.add calculateHash (depth + 1) key data = some ((m key).isNone, t') ∧
      Represents calculateHash t' lists' ((TabOp.add key data).apply m) keys' := by
  rw [TabOp.apply]
  by_cases hkey : key ∈ keys
  · obtain ⟨t', lists', hadd, h'⟩ := h.addElement_of_mem ⟨key, data, 0⟩ depth hkey
    have hsome : (m key).isNone = false := by
      rw [Option.isNone_eq_false_iff, Option.isSome_iff_ne_none, Ne, h.contents_eq_none, not_not]
      exact hkey
    rw [hsome]
    exact ⟨t', lists', keys, hadd, h'⟩
  · obtain ⟨t', lists', hadd, h'⟩ := h.addElement_of_notMem ⟨key, data, 0⟩ depth hkey
    rw [h.contents_eq_none.2 hkey]
    exact ⟨t', lists', _, hadd, h'⟩

/-- Where a key is located there is its entry. -/
theorem Represents.locate_cases (h : Represents calculateHash t lists m keys) (key : K) :
    (∃ i, t.locate calculateHash key = some (false, i) ∧ m key = none) ∨
      ∃ i data chain, t.locate calculateHash key = some (true, i) ∧ m key = some data ∧
        i < t.nextFree ∧ t.table i = some ⟨key, data, chain⟩ := by
  by_cases hkey : key ∈ keys
  · obtain ⟨i, data, hlocate, hi⟩ := h.locate_of_mem hkey
    obtain ⟨chain, he⟩ := content_eq_some.1 hi
    exact .inr ⟨i, data, chain, hlocate, (h.contents_eq key data).2 ⟨i, hi⟩,
      (h.content_bounds hi).2, he⟩
  · obtain ⟨i, hlocate, -⟩ := h.locate_of_notMem hkey
    exact .inl ⟨i, hlocate, h.contents_eq_none.2 hkey⟩

omit [DecidableEq K] in
/-- Both ways to change the data of a located key write the same entry. -/
theorem Represents.updateData_eq (h : Represents calculateHash t lists m keys) {i chain : ℕ}
    (data' : D) (hi : i < t.nextFree) (he : t.table i = some ⟨key, data, chain⟩) :
    t.updateData i data' =
        some { t with table := Function.update t.table i (some ⟨key, data', chain⟩) } ∧
      t.replace key i data' = t.updateData i data' := by
  rw [updateData, replace, h.deref_eq hi, he, Option.bind_some, Option.bind_some, write,
    if_pos (hi.trans h.nextFree_lt)]
  exact ⟨rfl, rfl⟩

/-- One operation on a table that represents a map. -/
theorem Represents.perform (h : Represents calculateHash t lists m keys) (op : TabOp K D) :
    ∃ t' lists' keys', t.perform calculateHash (depth + 2) op = some (op.answer m, t') ∧
      Represents calculateHash t' lists' (op.apply m) keys' := by
  cases op with
  | add key data => exact h.perform_add (depth + 1)
  | locate key =>
    obtain ⟨i, hlocate, hm⟩ | ⟨i, data, chain, hlocate, hm, -⟩ := h.locate_cases key
    all_goals
      refine ⟨t, lists, keys, ?_, h⟩
      rw [HashTab.perform, hlocate, TabOp.answer, hm]
      rfl
  | updateData key data =>
    rw [HashTab.perform, TabOp.answer, TabOp.apply]
    obtain ⟨i, hlocate, hm⟩ | ⟨i, data', chain, hlocate, hm, hi, he⟩ := h.locate_cases key
    · rw [hlocate, hm]
      exact ⟨t, lists, keys, rfl, h⟩
    · rw [hlocate, hm, Option.bind_some]
      exact ⟨_, lists, keys, congrArg (Option.map _) (h.updateData_eq data hi he).1, h.update he⟩
  | replace key data =>
    rw [HashTab.perform, TabOp.answer, TabOp.apply]
    obtain ⟨i, hlocate, hm⟩ | ⟨i, data', chain, hlocate, hm, hi, he⟩ := h.locate_cases key
    · rw [hlocate, hm]
      exact ⟨t, lists, keys, rfl, h⟩
    · rw [hlocate, hm, Option.bind_some]
      obtain ⟨hupdate, hreplace⟩ := h.updateData_eq data hi he
      exact ⟨_, lists, keys, congrArg (Option.map _) (hreplace.trans hupdate), h.update he⟩
  | growTo newSize =>
    obtain ⟨t', lists', hgrow, h'⟩ := h.growTo_eq depth newSize
    refine ⟨t', lists', keys, ?_, h'⟩
    rw [HashTab.perform, hgrow]
    rfl

end HashTab

/-- A table, and the map it stands for. -/
structure TabSystem (K D : Type*) where
  table : HashTab K D
  map : K → Option D

namespace TabSystem

variable (calculateHash : K → ℕ) (depth : ℕ)

/-- The operation on both. -/
def exec (s : TabSystem K D) (op : TabOp K D) : Option (TabSystem K D) :=
  (s.table.perform calculateHash depth op).map fun (_, t) => ⟨t, op.apply s.map⟩

/-- The answer is that of the map, and the table refines the map again. -/
def Kept (s : TabSystem K D) (op : TabOp K D) (s' : TabSystem K D) : Prop :=
  (s.table.perform calculateHash depth op).map Prod.fst = some (op.answer s.map) ∧
    s'.table.Refines calculateHash s'.map

/-- The table represents the map. -/
def Represented (s : TabSystem K D) : Prop :=
  ∃ lists keys, s.table.Represents calculateHash lists s.map keys

theorem Represented.step {s : TabSystem K D} (h : s.Represented calculateHash) (op : TabOp K D) :
    ∃ s', s.exec calculateHash (depth + 2) op = some s' ∧
      s.Kept calculateHash (depth + 2) op s' ∧ s'.Represented calculateHash := by
  obtain ⟨lists, keys, h⟩ := h
  obtain ⟨t', lists', keys', hperform, h'⟩ := h.perform depth op
  refine ⟨⟨t', op.apply s.map⟩, ?_, ⟨?_, h'.refines⟩, lists', keys', h'⟩
  · rw [exec, hperform, Option.map_some]
  · rw [hperform, Option.map_some]

end TabSystem

end OMR.Compiler
