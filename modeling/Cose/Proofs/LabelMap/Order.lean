import Mathlib.Data.List.Lex
import Cose.Proofs.Cbor.Head
import Cose.Proofs.LabelMap.Grammar

namespace Cose

namespace Label

open Cbor Bytes

/-- The head that a label is written with, and the bytes behind it. -/
def parts : Label → Major × Nat × Bytes
  | int i => if 0 ≤ i then (.unsigned, i.toInt.toNat, []) else (.negative, (-1 - i.toInt).toNat, [])
  | text s => (.text, (Bytes.ofText s).length, Bytes.ofText s)

theorem encode_eq (l : Label) : l.encode = head l.parts.1 l.parts.2.1 ++ l.parts.2.2 := by
  cases l with
  | int i =>
    rw [encode, Cbor.int, parts]
    split <;> simp
  | text s => rfl

/-- Labels are ranked by their heads, of which those for texts come last, and then bytewise. -/
theorem rank_eq (l : Label) : ∃ place, (place, l.parts.1.code) ∈ [(0, 0), (1, 1), (2, 3)] ∧
    l.rank = place :: l.parts.2.1 :: l.parts.2.2.map UInt8.toNat := by
  cases l with
  | int i =>
    rw [rank, parts]
    split
    · exact ⟨0, by simp [Major.code], rfl⟩
    · exact ⟨1, by simp [Major.code], rfl⟩
  | text s => exact ⟨2, by simp [parts, Major.code], rfl⟩

/-- A label whose head can announce what follows. -/
def Fits (l : Label) : Prop := l.parts.2.1 < 2 ^ 64

theorem fits_int (i : Int64) : Fits (.int i) := by
  have hlo := i.le_toInt
  have hhi := i.toInt_lt
  rw [Fits, parts]
  split
  next h =>
    show i.toInt.toNat < 2 ^ 64
    omega
  next h =>
    show (-1 - i.toInt).toNat < 2 ^ 64
    omega

theorem fits_of_length {l : Label} (h : l.encode.length < 2 ^ 64) : l.Fits := by
  cases l with
  | int i => exact fits_int i
  | text s =>
    rw [encode_eq, List.length_append] at h
    exact Nat.lt_of_le_of_lt (Nat.le_add_left _ _) h

theorem Written.fits {b : Bytes} {l : Label} (h : Written b l) : l.Fits := by
  cases h with
  | int h => exact fits_int _
  | text h =>
    cases h with
    | mk h => exact h.argument_lt

theorem encode_lt_of_lt {a b : Label} (h : a < b) (fits : b.Fits) : a.encode < b.encode := by
  obtain ⟨i, hi, ha⟩ := a.rank_eq
  obtain ⟨j, hj, hb⟩ := b.rank_eq
  have hrank : a.rank < b.rank := h
  simp only [List.mem_cons, Prod.mk.injEq, List.not_mem_nil, or_false] at hi hj
  rw [ha, hb, List.cons_lt_cons_iff] at hrank
  rw [encode_eq a, encode_eq b]
  rcases hrank with hplace | ⟨hplace, hrest⟩
  · exact before_head_of_code (by omega) _ _ _ _
  · have hcode : a.parts.1.code = b.parts.1.code := by omega
    have hmajor : a.parts.1 = b.parts.1 := by
      have hofCode := congrArg Major.ofCode? hcode
      rw [ofCode?_code, ofCode?_code] at hofCode
      exact Option.some.inj hofCode
    rw [hmajor]
    rcases List.cons_lt_cons_iff.mp hrest with harg | ⟨harg, htail⟩
    · exact before_head harg fits _ _
    · rw [harg]
      exact List.Lex.append_left _ (Bytes.map_toNat_lt_iff.mp htail) _

/-- One label comes before another if and only if its bytes do. -/
theorem encode_lt_iff {a b : Label} (ha : a.Fits) (hb : b.Fits) :
    a.encode < b.encode ↔ a < b := by
  constructor
  · intro h
    by_cases hlt : a < b
    · exact hlt
    · by_cases heq : a = b
      · subst heq
        exact absurd h (List.lt_irrefl _)
      · have hba := encode_lt_of_lt (lt_of_not_lt_of_ne hlt heq) ha
        exact absurd (List.lt_trans h hba) (List.lt_irrefl _)
  · intro h
    exact encode_lt_of_lt h hb

end Label

theorem LabelMap.ascending_encode {m : LabelMap} (fits : ∀ l ∈ m.labels, l.Fits) :
    (m.labels.map Label.encode).Pairwise (· < ·) := by
  rw [List.pairwise_map, labels, List.pairwise_map]
  refine m.ascending.imp_of_mem fun {d e} _ he hlt => ?_
  exact Label.encode_lt_of_lt hlt (fits e.1 (List.mem_map_of_mem he))

end Cose
