import Cose.Proofs.Cbor.Grammar
import Cose.LabelMap

namespace Cose

open Cbor

/-- The items that stand for a label. -/
inductive Label.Written : Bytes → Label → Prop
  | int {b : Bytes} {i : Int64} (h : IsInt b i) : Written b (.int i)
  | text {b : Bytes} {s : String} (h : IsText b s) : Written b (.text s)

/-- An entry of a map with the bytes that stand for its label and for its value. -/
structure WrittenEntry where
  labelBytes : Bytes
  label : Label
  valueBytes : Bytes
  value : Value

def WrittenEntry.bytes (e : WrittenEntry) : Bytes := e.labelBytes ++ e.valueBytes

/-- The items that stand for a value. -/
inductive Value.Written : Bytes → Value → Prop
  | int {b : Bytes} {i : Int64} (h : IsInt b i) : Written b (.int i)
  | bytes {b bs : Bytes} (h : IsBytes b bs) : Written b (.bytes bs)
  | text {b : Bytes} {s : String} (h : IsText b s) : Written b (.text s)
  | array {hd : Bytes} {items : List (Bytes × Value)} (h : IsHead .array hd items.length)
      (values : ∀ i ∈ items, Written i.1 i.2) :
      Written (hd ++ items.flatMap (·.1)) (.array (items.map (·.2)))
  | map {hd : Bytes} {entries : List WrittenEntry} {m : LabelMap}
      (h : IsHead .map hd entries.length)
      (labels : ∀ e ∈ entries, Label.Written e.labelBytes e.label)
      (values : ∀ e ∈ entries, Written e.valueBytes e.value)
      (distinct : (entries.map (·.label)).Nodup)
      (same : ∀ l v, m.get? l = some v ↔ ∃ e ∈ entries, e.label = l ∧ e.value = v) :
      Written (hd ++ entries.flatMap WrittenEntry.bytes) (.map m)
  | bool (b : Bool) : Written [if b then 0xf5 else 0xf4] (.bool b)
  | null : Written [0xf6] .null
  | tagged {hd b : Bytes} {tag : UInt64} {v : Value} (h : IsHead .tag hd tag.toNat)
      (content : Written b v) : Written (hd ++ b) (.tagged tag v)

namespace Value

theorem depthOfItems_le {ds : List Datum} {n : Nat} :
    Datum.depthOfItems ds ≤ n ↔ ∀ d ∈ ds, d.depth ≤ n := by
  induction ds with
  | nil => simp [Datum.depthOfItems]
  | cons d ds ih => rw [Datum.depthOfItems, Nat.max_le, ih, List.forall_mem_cons]

theorem depthOfEntries_le {es : List (Label × Datum)} {n : Nat} :
    Datum.depthOfEntries es ≤ n ↔ ∀ e ∈ es, e.2.depth ≤ n := by
  induction es with
  | nil => simp [Datum.depthOfEntries]
  | cons e es ih =>
    obtain ⟨l, d⟩ := e
    simp only [Datum.depthOfEntries, Nat.max_le, ih, List.mem_cons, forall_eq_or_imp]

theorem depth_array_le {items : List Value} {n : Nat} :
    (array items).depth ≤ n + 1 ↔ ∀ v ∈ items, v.depth ≤ n := by
  have h : (array items).depth = 1 + Datum.depthOfItems (items.map datum) := by
    simp [depth, array, Datum.depth]
  rw [h, Nat.add_comm, Nat.add_le_add_iff_right, depthOfItems_le, List.forall_mem_map]
  rfl

theorem depth_map_le {m : LabelMap} {n : Nat} :
    (map m).depth ≤ n + 1 ↔ ∀ e ∈ m.entries, e.2.depth ≤ n := by
  have h : (map m).depth = 1 + Datum.depthOfEntries (m.entries.map fun e => (e.1, e.2.datum)) := by
    simp [depth, map, Datum.depth]
  rw [h, Nat.add_comm, Nat.add_le_add_iff_right, depthOfEntries_le, List.forall_mem_map]
  rfl

theorem depth_tagged_le {tag : UInt64} {v : Value} {n : Nat} :
    (tagged tag v).depth ≤ n + 1 ↔ v.depth ≤ n := by
  have h : (tagged tag v).depth = 1 + v.depth := by simp [depth, tagged, Datum.depth]
  omega

theorem lt_depth_array {items : List Value} {n : Nat} :
    n + 1 < (array items).depth ↔ ∃ v ∈ items, n < v.depth := by
  rw [← Nat.not_le, depth_array_le]
  simp

theorem lt_depth_map {m : LabelMap} {n : Nat} :
    n + 1 < (map m).depth ↔ ∃ e ∈ m.entries, n < e.2.depth := by
  rw [← Nat.not_le, depth_map_le]
  simp

theorem lt_depth_tagged {tag : UInt64} {v : Value} {n : Nat} :
    n + 1 < (tagged tag v).depth ↔ n < v.depth := by
  rw [← Nat.not_le, depth_tagged_le, Nat.not_le]

theorem depth_pos (v : Value) : 0 < v.depth := by
  obtain ⟨d, hd⟩ := v
  cases d <;> simp only [depth, Datum.depth] <;> omega

theorem map_injective {m n : LabelMap} (h : map m = map n) : m = n := by
  have hd : m.entries.map (fun e => (e.1, e.2.datum)) = n.entries.map fun e => (e.1, e.2.datum) := by
    simpa [map] using congrArg datum h
  ext1
  refine (List.map_inj_right ?_).mp hd
  intro hform hform' he
  obtain ⟨l, v⟩ := hform
  obtain ⟨l', v'⟩ := hform'
  simp only [Prod.mk.injEq] at he
  exact Prod.ext he.1 (Value.ext he.2)

theorem Written.of_map {b : Bytes} {m : LabelMap} (h : Written b (.map m)) :
    ∃ (hd : Bytes) (entries : List WrittenEntry), b = hd ++ entries.flatMap WrittenEntry.bytes ∧
      IsHead .map hd entries.length ∧
      (∀ e ∈ entries, Label.Written e.labelBytes e.label) ∧
      (∀ e ∈ entries, Written e.valueBytes e.value) ∧ (entries.map (·.label)).Nodup ∧
      ∀ l v, m.get? l = some v ↔ ∃ e ∈ entries, e.label = l ∧ e.value = v := by
  generalize hv : Value.map m = v at h
  have hd := congrArg datum hv
  cases h with
  | map h labels values distinct same =>
    cases map_injective hv
    exact ⟨_, _, rfl, h, labels, values, distinct, same⟩
  | _ => cases hd

end Value

end Cose
