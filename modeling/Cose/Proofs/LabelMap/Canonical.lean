import Cose.Proofs.LabelMap.Deterministic
import Cose.Proofs.LabelMap.Reading

namespace Cose

open Cbor

namespace LabelMap

/-- The map is part of a value, at whatever level. -/
inductive OccursIn (m : LabelMap) : Value → Prop
  | self : OccursIn m (.map m)
  | item {items : List Value} {v : Value} (h : v ∈ items) (inner : OccursIn m v) :
      OccursIn m (.array items)
  | entry {n : LabelMap} {e : Label × Value} (h : e ∈ n.entries) (inner : OccursIn m e.2) :
      OccursIn m (.map n)
  | content {tag : UInt64} {v : Value} (inner : OccursIn m v) : OccursIn m (.tagged tag v)

theorem infix_flatMap_of_mem {α : Type} {f : α → Bytes} {xs : List α} {x : α} (h : x ∈ xs) :
    f x <:+: xs.flatMap f := by
  obtain ⟨before, behind, rfl⟩ := List.append_of_mem h
  rw [List.flatMap_append, List.flatMap_cons, ← List.append_assoc]
  exact List.infix_append _ _ _

/-- What a map is written as is found in what the value around it is written as. -/
theorem OccursIn.encode_infix {m : LabelMap} {v : Value} (h : m.OccursIn v) :
    m.encode <:+: v.encode := by
  induction h with
  | self => simp [Value.encode_map]
  | item h _ ih =>
    rw [Value.encode_array]
    exact (ih.trans (infix_flatMap_of_mem h)).trans (List.suffix_append _ _).isInfix
  | @entry n e h _ ih =>
    have hentry : e.2.encode <:+: n.entries.flatMap fun e => e.1.encode ++ e.2.encode :=
      (List.suffix_append e.1.encode _).isInfix.trans
        (infix_flatMap_of_mem (f := fun e => e.1.encode ++ e.2.encode) h)
    rw [Value.encode_map, encode]
    exact (ih.trans hentry).trans (List.suffix_append _ _).isInfix
  | content _ ih =>
    rw [Value.encode_tagged]
    exact ih.trans (List.suffix_append _ _).isInfix

theorem fits_of_mem_labels {m : LabelMap} {l : Label} (fits : m.encode.length < 2 ^ 64)
    (h : l ∈ m.labels) : l.Fits := by
  obtain ⟨e, he, rfl⟩ := List.mem_map.mp h
  have hle := length_le_of_mem_flatMap (f := fun e => e.1.encode ++ e.2.encode) he
  rw [List.length_append] at hle
  rw [encode, List.length_append] at fits
  exact Label.fits_of_length (by omega)

theorem deterministic_encode {m : LabelMap} (fits : m.encode.length < 2 ^ 64) :
    Deterministic m.encode := by
  have h := (fits_of_length fits).written.deterministic_encode
  rwa [Value.encode_map] at h

theorem encode_eq_iff_deterministic {b : Bytes} {m : LabelMap} (hne : b ≠ [])
    (h : decodeHeader b = .ok m) : m.encode = b ↔ Deterministic b := by
  rcases written_of_decodeHeader h with ⟨hnil, -⟩ | ⟨hw, -⟩
  · exact absurd hnil hne
  · rw [hw.deterministic_iff, Value.encode_map]
    exact eq_comm

theorem encode_inj {m n : LabelMap} (fits : m.encode.length < 2 ^ 64)
    (h : m.encode = n.encode) : m = n := by
  have hm := (fits_of_length fits).written
  have hn := (fits_of_length (m := n) (by rwa [← h])).written
  rw [← h] at hn
  exact Value.map_injective (hm.unique hn)

/-- A map is written in deterministic encoding, and within it every map that occurs in it with its
labels ascending bytewise; maps longer than a head can announce are left out. Of the bytes that are
read as a map exactly those are written again as they came that are in this form, and no two maps
share it. -/
theorem encode_canonical :
    (∀ m : LabelMap, m.encode.length < 2 ^ 64 → Deterministic m.encode ∧
      ∀ n : LabelMap, n.OccursIn (.map m) →
        n.encode <:+: m.encode ∧ Deterministic n.encode ∧
          (n.labels.map Label.encode).Pairwise (· < ·)) ∧
    (∀ (b : Bytes) (m : LabelMap), b ≠ [] → decodeHeader b = .ok m →
      (m.encode = b ↔ Deterministic b)) ∧
    ∀ m n : LabelMap, m.encode.length < 2 ^ 64 → (m.encode = n.encode ↔ m = n) := by
  refine ⟨?_, fun b m => encode_eq_iff_deterministic, ?_⟩
  · intro m fits
    refine ⟨deterministic_encode fits, fun n hn => ?_⟩
    have hpart := hn.encode_infix
    rw [Value.encode_map] at hpart
    have fits' : n.encode.length < 2 ^ 64 := Nat.lt_of_le_of_lt hpart.length_le fits
    exact ⟨hpart, deterministic_encode fits', ascending_encode fun _ => fits_of_mem_labels fits'⟩
  · intro m n fits
    exact ⟨encode_inj fits, congrArg encode⟩

/-- A map with labels of all sorts. -/
def innerLabels : LabelMap :=
  ofList [(.text "", .null), (.text "b", .null), (.int (-1), .int 24), (.int 500, .bool true)]

/-- The map at the third level. -/
def outerLabels : LabelMap := ofList [(.int (-7), .array [.tagged 24 (.map innerLabels)])]

/-- Two labels in the wrong order, and the second one longer than it needs to be. -/
def disordered : Bytes := [0xa2, 0x20, 0xf6, 0x18, 0x05, 0xf6]

theorem encode_canonical_outerLabels :
    Deterministic outerLabels.encode ∧
      (innerLabels.labels.map Label.encode).Pairwise (· < ·) ∧
      (disordered ≠ [] ∧
        decodeHeader disordered = .ok (ofList [(.int 5, .null), (.int (-1), .null)]) ∧
        ¬Deterministic disordered) ∧
      outerLabels.encode ≠ innerLabels.encode := by
  obtain ⟨written, read, distinct⟩ := encode_canonical
  have fits : outerLabels.encode.length < 2 ^ 64 := by decide +kernel
  have accepted : decodeHeader disordered =
      .ok (ofList [(.int 5, .null), (.int (-1), .null)]) := rfl
  have occurs : innerLabels.OccursIn (.map outerLabels) :=
    .entry (e := (.int (-7), .array [.tagged 24 (.map innerLabels)])) List.mem_cons_self
      (.item List.mem_cons_self (.content .self))
  obtain ⟨deterministic, inner⟩ := written outerLabels fits
  refine ⟨deterministic, (inner innerLabels occurs).2.2, ⟨by decide, accepted, ?_⟩, ?_⟩
  · rw [← read disordered _ (by decide) accepted]
    decide +kernel
  · rw [Ne, distinct _ _ fits]
    intro heq
    have hsize := congrArg size heq
    cases hsize

end LabelMap

end Cose
