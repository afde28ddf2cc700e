import Cose.Proofs.LabelMap.Reading
import Cose.Proofs.LabelMap.Writing

namespace Cose

/-- Why a value that nests too deep is refused. -/
def Value.tooDeep : DecodingError := .nestingTooDeep "header value" maxDepth

namespace LabelMap

/-- No value nests too deep. -/
def Shallow (m : LabelMap) : Prop := ∀ e ∈ m.entries, e.2.depth ≤ Value.maxDepth

instance (m : LabelMap) : Decidable m.Shallow :=
  inferInstanceAs (Decidable (∀ e ∈ m.entries, e.2.depth ≤ Value.maxDepth))

theorem shallow_empty : empty.Shallow := by
  intro e he
  cases he

theorem shallow_of_decodeHeader {b : Bytes} {m : LabelMap} (h : decodeHeader b = .ok m) :
    m.Shallow := by
  rcases written_of_decodeHeader h with ⟨-, rfl⟩ | ⟨-, deep⟩
  · exact shallow_empty
  · exact deep

theorem returns_read {m : LabelMap} (fits : m.Fits) (field : String) :
    (read field).Returns m.encode (if m.Shallow then .ok m else .error Value.tooDeep) := by
  split
  next shallow => exact takes_read fits.written shallow field
  next hnot =>
    have deep : ∃ e ∈ m.entries, Value.maxDepth < e.2.depth := by simpa [Shallow] using hnot
    exact refuses_read fits.written deep field

theorem decodeHeader_encode {m : LabelMap} (fits : m.Fits) :
    decodeHeader m.encode = if m.Shallow then .ok m else .error Value.tooDeep := by
  have hne : m.encode.isEmpty = false :=
    List.isEmpty_eq_false_iff.mpr (List.ne_nil_of_length_pos m.encode_length_pos)
  rw [decodeHeader, hne]
  exact (returns_read fits _).complete _

/-- A map is read back from what it is written as if its values nest at most 16 levels, and is
refused for its nesting if one of them nests deeper. Every string, array and map in it is to be one
that a head can announce. -/
theorem nesting_limit {m : LabelMap} (fits : m.Fits) :
    ((∀ e ∈ m.entries, e.2.depth ≤ 16) → decodeHeader m.encode = .ok m) ∧
    ((∃ e ∈ m.entries, 16 < e.2.depth) →
      decodeHeader m.encode = .error (.nestingTooDeep "header value" 16)) := by
  have hdecode := decodeHeader_encode fits
  constructor
  · intro hall
    have shallow : m.Shallow := hall
    rw [hdecode, if_pos shallow]
  · intro hform
    obtain ⟨e, he, deep⟩ := hform
    have hnot : ¬m.Shallow := fun shallow => Nat.not_le.mpr deep (shallow e he)
    rw [hdecode, if_neg hnot]
    rfl

/-- An empty array below so many arrays, maps and tags in turn. -/
def layers : Nat → Value
  | 0 => .array []
  | n + 1 =>
    match n % 3 with
    | 0 => .tagged 24 (layers n)
    | 1 => .array [.null, layers n]
    | _ => .map (ofList [(.int (-1), layers n), (.text "", .bool true)])

/-- A map with such a value behind a shallow one. -/
def layered (n : Nat) : LabelMap := ofList [(.int 1, .int (-7)), (.text "a", layers n)]

theorem nesting_limit_layered :
    ((layered 15).Fits ∧ (∀ e ∈ (layered 15).entries, e.2.depth ≤ 16) ∧
      decodeHeader (layered 15).encode = .ok (layered 15)) ∧
    (layered 16).Fits ∧ (∃ e ∈ (layered 16).entries, 16 < e.2.depth) ∧
      decodeHeader (layered 16).encode = .error (.nestingTooDeep "header value" 16) := by
  have fits : (layered 15).Fits := fits_of_length (by decide +kernel)
  have fits' : (layered 16).Fits := fits_of_length (by decide +kernel)
  have shallow : ∀ e ∈ (layered 15).entries, e.2.depth ≤ 16 := by decide +kernel
  have deep : ∃ e ∈ (layered 16).entries, 16 < e.2.depth := by decide +kernel
  exact ⟨⟨fits, shallow, (nesting_limit fits).1 shallow⟩, fits', deep, (nesting_limit fits').2 deep⟩

end LabelMap

end Cose
