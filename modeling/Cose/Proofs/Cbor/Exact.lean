import Cose.Proofs.Cbor.Items

namespace Cose.Reader

open Cbor

variable {α β : Type}

/-- Items of one form, and behind each an item of a form that depends on its content. -/
def Then (F : Bytes → α → Prop) (G : α → Bytes → β → Prop) (b : Bytes) (x : β) : Prop :=
  ∃ b₁ a b₂, b = b₁ ++ b₂ ∧ F b₁ a ∧ G a b₂ x

/-- The reader takes all items of a form, and nothing else. -/
structure Reads (r : Reader α) (F : Bytes → α → Prop) : Prop where
  takes : ∀ {b a}, F b a → r.Takes b a
  yields : r.Yields F

theorem Reads.congr {r : Reader α} {F G : Bytes → α → Prop} (h : r.Reads F)
    (hG : ∀ b a, G b a ↔ F b a) : r.Reads G := by
  constructor
  · intro b a hb
    exact h.takes ((hG b a).mp hb)
  · intro c
    exact (h.yields c).mono fun b a => (hG b a).mpr

theorem Reads.bind {r : Reader α} {f : α → Reader β} {F : Bytes → α → Prop}
    {G : α → Bytes → β → Prop} (hr : r.Reads F) (hf : ∀ a, (f a).Reads (G a)) :
    (r >>= f).Reads (Then F G) := by
  constructor
  · intro b x hform
    obtain ⟨b₁, a, b₂, rfl, hF, hG⟩ := hform
    exact (hr.takes hF).bind ((hf a).takes hG)
  · intro c
    refine (hr.yields c).bind (fun a => (hf a).yields) ?_
    intro b₁ a b₂ x hF hG
    exact ⟨b₁, a, b₂, rfl, hF, hG⟩

theorem reads_pure (a : α) : (pure a : Reader α).Reads fun b x => b = [] ∧ x = a := by
  constructor
  · intro b x hform
    obtain ⟨rfl, rfl⟩ := hform
    exact takes_pure x
  · exact yields_pure a

theorem Reads.map {r : Reader α} {F : Bytes → α → Prop} (hr : r.Reads F) (g : α → β) :
    (r >>= fun a => pure (g a)).Reads fun b x => ∃ a, F b a ∧ x = g a := by
  constructor
  · intro b x hform
    obtain ⟨a, hF, rfl⟩ := hform
    exact (hr.takes hF).map g
  · intro c
    exact (hr.yields c).map fun b a hF => ⟨a, hF, rfl⟩

theorem reads_throw (e : DecodingError) : (throw e : Reader α).Reads fun _ _ => False := by
  constructor
  · intro b a h
    cases h
  · intro c
    exact yieldsAt_throw e c _

/-- A condition on what has been read needs no further input. -/
theorem reads_unless {p : Prop} [Decidable p] (e : DecodingError) :
    (unless p do throw e : Reader Unit).Reads fun b _ => b = [] ∧ p := by
  by_cases hp : p
  · simpa [hp] using reads_pure ()
  · simpa [hp] using reads_throw (α := Unit) e

theorem reads_lift (x : Except DecodingError α) :
    (liftM x : Reader α).Reads fun b a => b = [] ∧ x = .ok a := by
  cases x with
  | error e =>
    refine (reads_throw e).congr fun b a => ?_
    simp
  | ok a =>
    refine (reads_pure a).congr fun b a' => ?_
    simp [eq_comm]

theorem yields_arrayLength (name : String) : (arrayLength name).Yields (IsHead .array) := by
  refine yields_lead fun b bs position => ?_
  split
  next form hl => exact yieldsAt_argument hl bs position
  next => exact yieldsAt_throw _ _ _
  next => exact yieldsAt_throw _ _ _

theorem reads_arrayLength (name : String) : (arrayLength name).Reads (IsHead .array) :=
  ⟨fun h => takes_arrayLength h name, yields_arrayLength name⟩

theorem reads_arrayOf (name : String) (n : Nat) :
    (arrayOf name n).Reads fun b _ => IsHead .array b n := by
  refine ((reads_arrayLength name).bind fun actual => reads_unless _).congr ?_
  intro b _
  constructor
  · intro h
    exact ⟨b, n, [], by simp, h, rfl, rfl⟩
  · intro hform
    obtain ⟨b₁, actual, _, rfl, h, rfl, rfl⟩ := hform
    simpa using h

theorem yields_bstr (field : String) : (bstr field).Yields IsBytes := by
  refine yields_lead fun b bs position => ?_
  split
  next form hl => exact yieldsAt_bytes hl bs position
  next => exact yieldsAt_throw _ _ _
  next => exact yieldsAt_throw _ _ _

theorem reads_bstr (field : String) : (bstr field).Reads IsBytes :=
  ⟨fun h => takes_bstr h field, yields_bstr field⟩

theorem yields_bstrOrNil (field : String) : (bstrOrNil field).Yields IsBytesOrNull := by
  refine yields_lead fun b bs position => ?_
  split
  next hl =>
    refine (yieldsAt_skip b bs position).map ?_
    intro b' _ heq
    subst heq
    obtain rfl : b = 0xf6 := byte_of_null hl
    exact .null
  next form hl => exact (yieldsAt_bytes hl bs position).map fun _ _ => .bytes
  next => exact yieldsAt_throw _ _ _
  next => exact yieldsAt_throw _ _ _

theorem reads_bstrOrNil (field : String) : (bstrOrNil field).Reads IsBytesOrNull := by
  refine ⟨?_, yields_bstrOrNil field⟩
  intro b content h
  cases h with
  | bytes h => exact takes_bstrOrNil h field
  | null => exact takes_bstrOrNil_null field

theorem yields_listOf {r : Reader α} {F : Bytes → α → Prop} (h : r.Yields F)
    (field name : String) : (listOf field name r).Yields (IsList F) := by
  intro c
  refine (yields_arrayLength field c).bind (G := fun n b as => n ≠ 0 ∧
    ∃ items : List (Bytes × α), items.length = n ∧ b = items.flatMap (·.1) ∧
      as = items.map (·.2) ∧ ∀ i ∈ items, F i.1 i.2) (fun n c => ?_) ?_
  · by_cases hn : n = 0
    · intro as c' has
      subst hn
      cases has
    · simpa [hn] using yields_times h n c
  · intro hd n b as hh hform
    obtain ⟨hn, items, rfl, rfl, rfl, hF⟩ := hform
    exact .mk hh (by simpa using hn) hF

theorem reads_listOf {r : Reader α} {F : Bytes → α → Prop} (h : r.Reads F)
    (field name : String) : (listOf field name r).Reads (IsList F) := by
  refine ⟨?_, yields_listOf h.yields field name⟩
  intro b as hb
  cases hb with
  | mk array nonempty each =>
    exact takes_listOf nonempty array (fun i hi => h.takes (each i hi)) field name

/-- A whole input is read if and only if it is one item of the form. -/
theorem Reads.complete_eq_ok_iff {r : Reader α} {F : Bytes → α → Prop} (h : r.Reads F)
    (name : String) (b : Bytes) (a : α) : complete name r b = .ok a ↔ F b a := by
  constructor
  · intro hb
    obtain ⟨c, hc, hr⟩ := complete_eq_ok.mp hb
    obtain ⟨b', hb', -, hF⟩ := h.yields _ a c hc
    obtain rfl : b = b' := by rw [← List.append_nil b', ← hr, ← hb']
    exact hF
  · intro hF
    exact Returns.complete (x := .ok a) (h.takes hF) name

end Cose.Reader
