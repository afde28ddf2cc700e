import Cose.Cbor.Head

namespace Cose

/-- The label of a map entry. Labels come in the order of deterministic encoding: integers from zero
upwards, then negative ones from minus one downwards, then texts, shorter ones first and those of one
length bytewise. -/
inductive Label
  | int (value : Int64)
  | text (value : String)
deriving DecidableEq, Repr

namespace Label

instance : Coe Int64 Label := ⟨int⟩

/-- The numbers by which labels are compared, the first that differs deciding. -/
def rank : Label → List Nat
  | int i => if 0 ≤ i then [0, i.toInt.toNat] else [1, (-1 - i.toInt).toNat]
  | text s => 2 :: (Bytes.ofText s).length :: (Bytes.ofText s).map UInt8.toNat

instance : LT Label := ⟨fun a b => a.rank < b.rank⟩

instance : DecidableLT Label := fun a b => inferInstanceAs (Decidable (a.rank < b.rank))

/-- The data item that a label is written as. -/
def encode : Label → Bytes
  | int i => Cbor.int i
  | text s => Cbor.text s

/-- The label as it is shown in messages, texts in quotes. -/
def display : Label → String
  | int i => toString i
  | text s => "\"" ++ s ++ "\""

theorem rank_injective {a b : Label} (h : a.rank = b.rank) : a = b := by
  cases a with
  | int i =>
    cases b with
    | int j =>
      congr 1
      apply Int64.toInt_inj.mp
      simp only [rank, Int64.le_iff_toInt_le, Int64.toInt_zero] at h
      split at h <;> split at h <;> simp only [List.cons.injEq] at h <;> omega
    | text t =>
      simp only [rank] at h
      split at h <;> simp at h
  | text s =>
    cases b with
    | int j =>
      simp only [rank] at h
      split at h <;> simp at h
    | text t =>
      simp only [rank, List.cons.injEq] at h
      congr 1
      apply Bytes.ofText_injective
      exact (List.map_inj_right fun _ _ hb => UInt8.toNat_inj.mp hb).mp h.2.2

theorem lt_irrefl (a : Label) : ¬a < a :=
  List.lt_irrefl a.rank

theorem lt_trans {a b c : Label} (hab : a < b) (hbc : b < c) : a < c :=
  List.lt_trans (α := Nat) hab hbc

theorem ne_of_lt {a b : Label} (h : a < b) : a ≠ b := by
  rintro rfl
  exact lt_irrefl a h

theorem lt_of_not_lt_of_ne {a b : Label} (h : ¬a < b) (hne : a ≠ b) : b < a := by
  by_cases hlt : b.rank < a.rank
  · exact hlt
  · exact absurd (rank_injective (List.le_antisymm hlt h)) hne

end Label

end Cose
