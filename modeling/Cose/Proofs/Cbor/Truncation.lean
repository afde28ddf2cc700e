import Cose.Proofs.Cbor.Items

namespace Cose

/-- The same place in an input that goes on with further bytes. -/
def Cursor.append (c : Cursor) (s : Bytes) : Cursor := ⟨c.rest ++ s, c.position⟩

namespace Reader

open Cbor

variable {α β : Type}

/-- A reader for which it makes no difference what follows the bytes that it takes, and which runs
out of input if some of them are missing. -/
structure Steady (r : Reader α) : Prop where
  extend : ∀ {c c' a}, r c = .ok (a, c') → ∀ s, r (c.append s) = .ok (a, c'.append s)
  cut : ∀ {c s a d}, r (c.append s) = .ok (a, d) →
    r c = .error (.cbor .endOfInput) ∨ ∃ c', r c = .ok (a, c') ∧ d = c'.append s

theorem steady_pure (a : α) : (pure a : Reader α).Steady := by
  constructor
  · intro c c' a' h s
    cases h
    rfl
  · intro c s a' d h
    cases h
    exact .inr ⟨c, rfl, rfl⟩

theorem steady_throw (e : DecodingError) : (throw e : Reader α).Steady := by
  constructor
  · intro c c' a h
    cases h
  · intro c s a d h
    cases h

theorem steady_lift (x : Except DecodingError α) : (liftM x : Reader α).Steady := by
  cases x with
  | error e => exact steady_throw e
  | ok a => exact steady_pure a

theorem Steady.bind {r : Reader α} {f : α → Reader β} (hr : r.Steady) (hf : ∀ a, (f a).Steady) :
    (r >>= f).Steady := by
  constructor
  · intro c c'' x h s
    obtain ⟨a, c', ha, hx⟩ := bind_eq_ok.mp h
    exact bind_eq_ok.mpr ⟨a, c'.append s, hr.extend ha s, (hf a).extend hx s⟩
  · intro c s x d h
    obtain ⟨a, d', ha, hx⟩ := bind_eq_ok.mp h
    rcases hr.cut ha with hend | ⟨c', hc, rfl⟩
    · left
      rw [bind_apply, hend]
    · rw [bind_apply, hc]
      exact (hf a).cut hx

theorem Steady.map {r : Reader α} (hr : r.Steady) (g : α → β) :
    (r >>= fun a => pure (g a)).Steady :=
  hr.bind fun a => steady_pure (g a)

theorem steady_position : position.Steady := by
  constructor
  · intro c c' n h s
    cases h
    rfl
  · intro c s n d h
    cases h
    exact .inr ⟨c, rfl, rfl⟩

theorem steady_take (n : Nat) : (take n).Steady := by
  constructor
  · intro c c' bs h s
    unfold take at h
    split at h
    next front rest hsplit =>
      obtain ⟨hrest, hlength⟩ := Bytes.split?_eq_some hsplit
      have happend : Bytes.split? n (c.rest ++ s) = some (front, rest ++ s) := by
        rw [hrest, List.append_assoc, ← hlength, Bytes.split?_append]
      cases h
      simp [take, Cursor.append, happend]
    next => cases h
  · intro c s bs d h
    unfold take at h ⊢
    cases hsplit : Bytes.split? n c.rest with
    | none => exact .inl rfl
    | some p =>
      obtain ⟨front, rest⟩ := p
      obtain ⟨hrest, hlength⟩ := Bytes.split?_eq_some hsplit
      have happend : Bytes.split? n (c.append s).rest = some (front, rest ++ s) := by
        rw [Cursor.append, hrest, List.append_assoc, ← hlength, Bytes.split?_append]
      rw [happend] at h
      cases h
      exact .inr ⟨_, rfl, rfl⟩

theorem steady_skip : skip.Steady := (steady_take 1).map fun _ => ()

/-- Looking at the next item takes nothing, but there must be something to look at. -/
theorem steady_lead : lead.Steady := by
  constructor
  · intro c c' l h s
    obtain ⟨rfl, b, bs, hc, rfl⟩ := lead_eq_ok h
    obtain ⟨rest, n⟩ := c'
    obtain rfl : rest = b :: bs := hc
    refine lead_cons n ?_
    intro hahead hnil
    obtain ⟨rfl, -⟩ := List.append_eq_nil_iff.mp hnil
    simp [lead, hahead] at h
  · intro c s l d h
    obtain ⟨rfl, b, bs, hc, rfl⟩ := lead_eq_ok h
    obtain ⟨rest, n⟩ := c
    cases rest with
    | nil =>
      left
      rfl
    | cons x xs =>
      obtain ⟨rfl, -⟩ := List.cons.inj hc
      -- The byte behind the first one may have to be there, though it is not taken.
      cases hahead : looksAhead x && xs.isEmpty with
      | true =>
        left
        simp [lead, hahead]
      | false =>
        right
        exact ⟨_, by simp [lead, hahead], rfl⟩

theorem steady_argument (form : Argument) : (argument form).Steady := by
  refine steady_skip.bind fun _ => ?_
  cases form with
  | inline n => exact steady_pure n
  | following width => exact (steady_take width).map Bytes.toNat

theorem steady_int (negative : Bool) (form : Argument) : (int negative form).Steady := by
  refine steady_position.bind fun _ => (steady_argument form).bind fun n => ?_
  split
  · exact steady_pure _
  · exact steady_throw _

theorem steady_bytes (form : Argument) : (bytes form).Steady :=
  (steady_argument form).bind steady_take

theorem steady_text (form : Argument) : (text form).Steady := by
  refine steady_position.bind fun _ => (steady_bytes form).bind fun bs => ?_
  split
  · exact steady_pure _
  · exact steady_throw _

theorem steady_times {r : Reader α} (hr : r.Steady) (n : Nat) : (times n r).Steady := by
  induction n with
  | zero => exact steady_pure []
  | succ n ih => exact hr.bind fun a => ih.map (a :: ·)

theorem steady_unless (p : Prop) [Decidable p] (e : DecodingError) :
    (unless p do throw e : Reader Unit).Steady := by
  split
  · exact steady_pure ()
  · exact steady_throw e

theorem steady_arrayLength (name : String) : (arrayLength name).Steady := by
  refine steady_lead.bind fun l => ?_
  split
  · exact steady_argument _
  · exact steady_throw _
  · exact steady_throw _

theorem steady_arrayOf (name : String) (n : Nat) : (arrayOf name n).Steady :=
  (steady_arrayLength name).bind fun _ => steady_unless _ _

theorem steady_bstr (field : String) : (bstr field).Steady := by
  refine steady_lead.bind fun l => ?_
  split
  · exact steady_bytes _
  · exact steady_throw _
  · exact steady_throw _

theorem steady_bstrOrNil (field : String) : (bstrOrNil field).Steady := by
  refine steady_lead.bind fun l => ?_
  split
  · exact steady_skip.map fun _ => none
  · exact (steady_bytes _).map some
  · exact steady_throw _
  · exact steady_throw _

theorem steady_listOf {r : Reader α} (hr : r.Steady) (field name : String) :
    (listOf field name r).Steady := by
  refine (steady_arrayLength field).bind fun n => ?_
  split
  · exact (steady_throw _).bind fun _ => steady_times hr n
  · exact steady_times hr n

/-- An input that is read as a whole goes on with nothing. -/
theorem Steady.complete_append {r : Reader α} (hr : r.Steady) {name : String} {b s : Bytes} {a : α}
    (h : complete name r b = .ok a) (hs : s ≠ []) :
    complete name r (b ++ s) = .error (.trailingBytes name) := by
  obtain ⟨⟨rest, n⟩, hc, hrest⟩ := complete_eq_ok.mp h
  obtain rfl : rest = [] := hrest
  have happend : r ⟨b ++ s, 0⟩ = .ok (a, ⟨s, n⟩) := hr.extend hc s
  rw [complete_eq, happend]
  exact if_neg hs

/-- Of an input that is read as a whole nothing can be left out at the end. -/
theorem Steady.complete_cut {r : Reader α} (hr : r.Steady) {name : String} {b s : Bytes} {a : α}
    (h : complete name r (b ++ s) = .ok a) (hs : s ≠ []) :
    complete name r b = .error (.cbor .endOfInput) := by
  obtain ⟨d, hd, hrest⟩ := complete_eq_ok.mp h
  rcases hr.cut (c := ⟨b, 0⟩) hd with hend | ⟨c', -, rfl⟩
  · rw [complete_eq, hend]
  · obtain ⟨-, hnil⟩ := List.append_eq_nil_iff.mp hrest
    exact absurd hnil hs

end Reader

end Cose
