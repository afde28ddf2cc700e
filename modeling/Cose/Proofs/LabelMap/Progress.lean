import Mathlib.Algebra.Order.BigOperators.Group.List
import Mathlib.Algebra.Order.Ring.Nat
import Mathlib.Data.List.Perm.Subperm
import Cose.Proofs.Cbor.Progress
import Cose.Proofs.LabelMap.Nesting
import Cose.Proofs.LabelMap.Deterministic

namespace Cose

open Cbor Reader

namespace Datum

mutual

/-- The number of labels and values in an item, itself included. -/
def tally : Datum → Nat
  | array items => 1 + tallyOfItems items
  | map entries => 1 + tallyOfEntries entries
  | tagged _ d => 1 + d.tally
  | _ => 1

def tallyOfItems : List Datum → Nat
  | [] => 0
  | d :: ds => d.tally + tallyOfItems ds

def tallyOfEntries : List (Label × Datum) → Nat
  | [] => 0
  | (_, d) :: es => 1 + d.tally + tallyOfEntries es

end

theorem tallyOfItems_eq (ds : List Datum) : tallyOfItems ds = (ds.map tally).sum := by
  induction ds with
  | nil => rfl
  | cons d ds ih => rw [tallyOfItems, ih, List.map_cons, List.sum_cons]

theorem tallyOfEntries_eq (es : List (Label × Datum)) :
    tallyOfEntries es = (es.map fun e => 1 + e.2.tally).sum := by
  induction es with
  | nil => rfl
  | cons e es ih => rw [tallyOfEntries, ih, List.map_cons, List.sum_cons]

end Datum

/-- The number of labels and values in a value, itself included. -/
def Value.tally (v : Value) : Nat := v.datum.tally

def LabelMap.tallyOf (es : List (Label × Value)) : Nat := (es.map fun e => 1 + e.2.tally).sum

/-- The number of labels and values in a map. -/
def LabelMap.tally (m : LabelMap) : Nat := tallyOf m.entries

namespace Value

theorem tally_array (items : List Value) : (array items).tally = 1 + (items.map tally).sum := by
  show 1 + Datum.tallyOfItems (items.map datum) = _
  rw [Datum.tallyOfItems_eq, List.map_map]
  rfl

theorem tally_map (m : LabelMap) : (map m).tally = 1 + m.tally := by
  show 1 + Datum.tallyOfEntries (m.entries.map fun e => (e.1, e.2.datum)) = _
  rw [Datum.tallyOfEntries_eq, List.map_map]
  rfl

theorem tally_tagged (tag : UInt64) (v : Value) : (tagged tag v).tally = 1 + v.tally := rfl

end Value

/-- What is counted part by part is no more than the bytes, if that is so for each part. -/
theorem sum_le_length_flatMap {α : Type} {f : α → Bytes} {g : α → Nat} {xs : List α}
    (h : ∀ x ∈ xs, g x ≤ (f x).length) : (xs.map g).sum ≤ (xs.flatMap f).length := by
  rw [List.length_flatMap]
  exact List.sum_le_sum h

/-- There are no more labels and values than bytes. -/
theorem Value.Written.tally_le {b : Bytes} {v : Value} (h : Written b v) :
    v.tally ≤ b.length := by
  induction h with
  | int h => exact h.wellFormed.length_pos
  | bytes h => exact h.wellFormed.length_pos
  | text h => exact h.wellFormed.length_pos
  | @array hd items h _ ih =>
    have hsum := sum_le_length_flatMap (g := fun i : Bytes × Value => i.2.tally) ih
    have hp := h.length_pos
    rw [tally_array, List.map_map, List.length_append]
    exact Nat.add_le_add hp hsum
  | @map hd entries m h labels _ distinct same ih =>
    have hentry : ∀ e ∈ entries, 1 + e.value.tally ≤ e.bytes.length := by
      intro e he
      have hl := (labels e he).wellFormed.length_pos
      have hv := ih e he
      rw [WrittenEntry.bytes, List.length_append]
      omega
    have hsum := sum_le_length_flatMap hentry
    have hperm := ((LabelMap.perm_entries distinct same).map fun e => 1 + e.2.tally).sum_eq
    rw [List.map_map] at hperm
    have hp := h.length_pos
    rw [tally_map, LabelMap.tally, LabelMap.tallyOf, ← hperm, List.length_append]
    exact Nat.add_le_add hp hsum
  | bool => exact Nat.le_refl 1
  | null => exact Nat.le_refl 1
  | tagged h _ ih =>
    have hp := h.length_pos
    rw [tally_tagged, List.length_append]
    omega

theorem Value.Written.tally_map_le {b : Bytes} {m : LabelMap} (h : Written b (.map m)) :
    1 + m.tally ≤ b.length := by
  rw [← tally_map]
  exact h.tally_le

theorem Label.progresses_read (field : String) : (Label.read field).Progresses :=
  progresses_of_yields (yields_read field) fun _ _ h => h.wellFormed

theorem Value.progresses_readWithin (field : String) (levels : Nat) :
    (readWithin field levels).Progresses :=
  progresses_of_yields (yields_readWithin field levels) fun _ _ h => h.1.wellFormed

theorem Value.depth_le_of_readWithin {field : String} {levels : Nat} {c c' : Cursor} {v : Value}
    (h : readWithin field levels c = .ok (v, c')) : v.depth ≤ levels := by
  obtain ⟨b, -, -, -, deep⟩ := yields_readWithin field levels c v c' h
  exact deep

namespace LabelMap

variable {b : Bytes} {m : LabelMap}

theorem progresses_readWith (field : String) (levels : Nat) :
    (readWith field (Value.readWithin field levels)).Progresses := by
  refine progresses_of_yields (yields_readWith (Value.yields_readWithin field levels) field) ?_
  intro b m hform
  obtain ⟨hd, entries, rfl, hh, ha, same⟩ := hform
  have hw := Value.Written.map hh ha.labels (fun e he => (ha.values e he).1) ha.distinct same
  exact hw.wellFormed

/-- Once there are more entries to come than bytes, their number makes no difference. -/
theorem readEntries_eq_of_lt {item : Reader Value} (h : item.Advances) (field : String) {n k : Nat}
    {c : Cursor} (hn : c.rest.length < n) (hk : c.rest.length < k) (m : LabelMap) :
    readEntries field item n m c = readEntries field item k m c := by
  induction n generalizing k c m with
  | zero => omega
  | succ n ih =>
    obtain ⟨k, rfl⟩ : ∃ j, k = j + 1 := ⟨k - 1, by omega⟩
    rw [readEntries, readEntries, bind_apply, bind_apply]
    cases hl : Label.read field c with
    | error e => rfl
    | ok p =>
      have hlt := (Label.progresses_read field).advances.length_lt hl
      show (item >>= _) p.2 = (item >>= _) p.2
      rw [bind_apply, bind_apply]
      cases hv : item p.2 with
      | error e => rfl
      | ok q =>
        have hlt' := h.length_lt hv
        have hrest := ih (k := k) (c := q.2) (by omega) (by omega) (m.insert p.1 q.1)
        cases hc : m.contains p.1 with
        | true => rfl
        | false => simpa [hc] using hrest

theorem rounds_readEntries (field : String) (levels n : Nat) (m : LabelMap) (c : Cursor) :
    readEntries field (Value.readWithin field levels) n m c =
      readEntries field (Value.readWithin field levels) (min n (c.rest.length + 1)) m c := by
  have hadvances := (Value.progresses_readWithin field levels).advances
  rcases Nat.le_total n (c.rest.length + 1) with hle | hle
  · rw [Nat.min_eq_left hle]
  · exact readEntries_eq_of_lt hadvances field (by omega) (by omega) m

theorem tallyOf_le_of_subperm {es fs : List (Label × Value)} (h : es.Subperm fs) :
    tallyOf es ≤ tallyOf fs := by
  obtain ⟨gs, hperm, hsub⟩ := h
  have hsum := (hperm.map fun e => 1 + e.2.tally).sum_eq
  rw [tallyOf, ← hsum]
  exact (hsub.map _).sum_le_sum fun _ _ => Nat.zero_le _

theorem tally_le_of_decodeHeader (h : decodeHeader b = .ok m) : m.tally ≤ b.length := by
  rcases written_of_decodeHeader h with ⟨-, rfl⟩ | ⟨hw, -⟩
  · exact Nat.zero_le _
  · have := hw.tally_map_le
    omega

theorem covered_of_decodeHeader (h : decodeHeader b = .ok m) : Covered b := by
  rcases written_of_decodeHeader h with ⟨rfl, -⟩ | ⟨hw, -⟩
  · exact IsSequence.covered ⟨[], rfl, by simp⟩
  · exact hw.wellFormed.isSequence.covered

end LabelMap

end Cose
