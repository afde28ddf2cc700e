import Cose.Proofs.Cbor.Grammar

namespace Cose.Reader

open Cbor

variable {α β : Type}

/-- In front of any other input the reader takes `b` and gives `a`. -/
def Takes (r : Reader α) (b : Bytes) (a : α) : Prop :=
  ∀ rest position, r ⟨b ++ rest, position⟩ = .ok (a, ⟨rest, position + b.length⟩)

/-- The reader fails on every input that begins with `b`. -/
def Refuses (r : Reader α) (b : Bytes) (e : DecodingError) : Prop :=
  ∀ rest position, r ⟨b ++ rest, position⟩ = .error e

/-- The outcome of reading any input that begins with `b`, of which `b` is taken on success. -/
def Returns (r : Reader α) (b : Bytes) (x : Except DecodingError α) : Prop :=
  match x with
  | .ok a => r.Takes b a
  | .error e => r.Refuses b e

/-- What the reader gives at a place stands there in a given form and is all that is taken. -/
def YieldsAt (r : Reader α) (c : Cursor) (form : Bytes → α → Prop) : Prop :=
  ∀ a c', r c = .ok (a, c') →
    ∃ b, c.rest = b ++ c'.rest ∧ c'.position = c.position + b.length ∧ form b a

/-- What the reader gives stands at the front of its input in a given form. -/
def Yields (r : Reader α) (form : Bytes → α → Prop) : Prop :=
  ∀ c, r.YieldsAt c form

/-- The item at the front of every input that begins with `b` is of the given kind. -/
def Begins (b : Bytes) (l : Lead) : Prop :=
  ∀ rest position, lead ⟨b ++ rest, position⟩ = .ok (l, ⟨b ++ rest, position⟩)

theorem bind_apply (r : Reader α) (f : α → Reader β) (c : Cursor) :
    (r >>= f) c = match r c with
      | .ok (a, c') => f a c'
      | .error e => .error e := by
  show (r c >>= fun p => f p.1 p.2) = _
  cases r c <;> rfl

theorem bind_eq_ok {r : Reader α} {f : α → Reader β} {c c'' : Cursor} {x : β} :
    (r >>= f) c = .ok (x, c'') ↔ ∃ a c', r c = .ok (a, c') ∧ f a c' = .ok (x, c'') := by
  rw [bind_apply]
  cases hr : r c with
  | error e => simp
  | ok p =>
    obtain ⟨a, c'⟩ := p
    constructor
    · intro h
      exact ⟨a, c', rfl, h⟩
    · intro hform
      obtain ⟨a', c₁, ha, h⟩ := hform
      cases ha
      exact h

theorem Takes.bind {r : Reader α} {f : α → Reader β} {b b' : Bytes} {a : α} {x : β}
    (hr : r.Takes b a) (hf : (f a).Takes b' x) : (r >>= f).Takes (b ++ b') x := by
  intro rest position
  rw [bind_apply, List.append_assoc, hr, List.length_append, ← Nat.add_assoc]
  exact hf rest (position + b.length)

theorem takes_pure (a : α) : (pure a : Reader α).Takes [] a := fun _ _ => rfl

theorem Takes.map {r : Reader α} {b : Bytes} {a : α} (hr : r.Takes b a) (g : α → β) :
    (r >>= fun a => pure (g a)).Takes b (g a) := by
  simpa using hr.bind (f := fun a => pure (g a)) (takes_pure (g a))

theorem Takes.refuses {r : Reader α} {f : α → Reader β} {b b' : Bytes} {a : α}
    {e : DecodingError} (hr : r.Takes b a) (hf : (f a).Refuses b' e) :
    (r >>= f).Refuses (b ++ b') e := by
  intro rest position
  rw [bind_apply, List.append_assoc, hr]
  exact hf rest (position + b.length)

theorem Refuses.bind {r : Reader α} {b : Bytes} {e : DecodingError} (hr : r.Refuses b e)
    (f : α → Reader β) : (r >>= f).Refuses b e := by
  intro rest position
  rw [bind_apply, hr]

theorem Refuses.append {r : Reader α} {b : Bytes} {e : DecodingError} (hr : r.Refuses b e)
    (b' : Bytes) : r.Refuses (b ++ b') e := by
  intro rest position
  rw [List.append_assoc]
  exact hr (b' ++ rest) position

theorem refuses_throw (b : Bytes) (e : DecodingError) : (throw e : Reader α).Refuses b e :=
  fun _ _ => rfl

theorem Takes.returns {r : Reader α} {f : α → Reader β} {b b' : Bytes} {a : α}
    {x : Except DecodingError β} (hr : r.Takes b a) (hf : (f a).Returns b' x) :
    (r >>= f).Returns (b ++ b') x := by
  cases x with
  | error e => exact hr.refuses hf
  | ok x => exact hr.bind hf

section

variable {r : Reader α} {f : α → Reader β} {b b' : Bytes} {a : α} {x : β} {e : DecodingError}
  {P Q : Prop} [Decidable P] [Decidable Q]

/-- Of two readers in a row each can fail, for the same reason. -/
theorem Returns.and (hr : r.Returns b (if P then .ok a else .error e))
    (hf : (f a).Returns b' (if Q then .ok x else .error e)) :
    (r >>= f).Returns (b ++ b') (if P ∧ Q then .ok x else .error e) := by
  by_cases hP : P
  · rw [if_pos hP] at hr
    simp only [hP, true_and]
    exact Takes.returns hr hf
  · rw [if_neg hP] at hr
    rw [if_neg fun h => hP h.1]
    exact (Refuses.bind hr f).append b'

theorem Returns.takes (hr : r.Returns b (if P then .ok a else .error e))
    (hf : (f a).Takes b' x) : (r >>= f).Returns (b ++ b') (if P then .ok x else .error e) := by
  by_cases hP : P
  · rw [if_pos hP] at hr ⊢
    exact Takes.bind hr hf
  · rw [if_neg hP] at hr ⊢
    exact (Refuses.bind hr f).append b'

end

theorem Returns.congr {r r' : Reader α} {b : Bytes} {x : Except DecodingError α}
    (hr : r.Returns b x)
    (h : ∀ rest position, r' ⟨b ++ rest, position⟩ = r ⟨b ++ rest, position⟩) :
    r'.Returns b x := by
  cases x with
  | error e => exact fun rest position => (h rest position).trans (hr rest position)
  | ok a => exact fun rest position => (h rest position).trans (hr rest position)

theorem Returns.map {r : Reader α} {b : Bytes} {x : Except DecodingError α} (hr : r.Returns b x)
    (g : α → β) : (r >>= fun a => pure (g a)).Returns b (x.map g) := by
  cases x with
  | error e => exact hr.bind (fun a => pure (g a))
  | ok a => exact Takes.map hr g

theorem Returns.map_ite {r : Reader α} {b : Bytes} {a : α} {e : DecodingError} {P : Prop}
    [Decidable P] (hr : r.Returns b (if P then .ok a else .error e)) (g : α → β) :
    (r >>= fun a => pure (g a)).Returns b (if P then .ok (g a) else .error e) := by
  have hmap := hr.map g
  rwa [apply_ite (Except.map g)] at hmap

theorem YieldsAt.bind {r : Reader α} {f : α → Reader β} {c : Cursor} {F : Bytes → α → Prop}
    {G : α → Bytes → β → Prop} {H : Bytes → β → Prop} (hr : r.YieldsAt c F)
    (hf : ∀ a, (f a).Yields (G a)) (h : ∀ b a b' x, F b a → G a b' x → H (b ++ b') x) :
    (r >>= f).YieldsAt c H := by
  intro x c'' hx
  obtain ⟨a, c', ha, hx⟩ := bind_eq_ok.mp hx
  obtain ⟨b, hb, hp, hF⟩ := hr a c' ha
  obtain ⟨b', hb', hp', hG⟩ := hf a c' x c'' hx
  refine ⟨b ++ b', by rw [hb, hb', List.append_assoc], ?_, h b a b' x hF hG⟩
  rw [hp', hp, List.length_append, Nat.add_assoc]

theorem yields_pure (a : α) : (pure a : Reader α).Yields fun b x => b = [] ∧ x = a := by
  intro c x c' hx
  cases hx
  exact ⟨[], rfl, rfl, rfl, rfl⟩

theorem YieldsAt.map {r : Reader α} {c : Cursor} {F : Bytes → α → Prop} {H : Bytes → β → Prop}
    {g : α → β} (hr : r.YieldsAt c F) (h : ∀ b a, F b a → H b (g a)) :
    (r >>= fun a => pure (g a)).YieldsAt c H := by
  refine hr.bind (fun a => yields_pure (g a)) ?_
  intro b a b' x hF hform
  obtain ⟨rfl, rfl⟩ := hform
  simpa using h b a hF

theorem YieldsAt.mono {r : Reader α} {c : Cursor} {F G : Bytes → α → Prop} (hr : r.YieldsAt c F)
    (h : ∀ b a, F b a → G b a) : r.YieldsAt c G := by
  intro a c' ha
  obtain ⟨b, hb, hp, hF⟩ := hr a c' ha
  exact ⟨b, hb, hp, h b a hF⟩

theorem yieldsAt_throw (e : DecodingError) (c : Cursor) (form : Bytes → α → Prop) :
    (throw e : Reader α).YieldsAt c form := by
  intro a c' h
  cases h

/-- A reader that takes every item of a form, whatever follows it, leaves only one way to see an
input as such an item and a rest. -/
theorem Takes.unique {r : Reader α} {b b' rest rest' : Bytes} {a a' : α} (h : r.Takes b a)
    (h' : r.Takes b' a') (he : b ++ rest = b' ++ rest') : b = b' ∧ a = a' ∧ rest = rest' := by
  have h1 := h rest 0
  rw [he, h' rest' 0] at h1
  simp only [Except.ok.injEq, Prod.mk.injEq, Cursor.mk.injEq] at h1
  obtain ⟨rfl, rfl, -⟩ := h1
  exact ⟨List.append_cancel_right he, rfl, rfl⟩

theorem takes_take (bs : Bytes) : (take bs.length).Takes bs bs := by
  intro rest position
  simp [take, Bytes.split?_append]

theorem yields_take (n : Nat) : (take n).Yields fun b bs => b = bs ∧ bs.length = n := by
  intro c bs c' h
  unfold take at h
  split at h
  next front rest hs =>
    cases h
    obtain ⟨hb, hn⟩ := Bytes.split?_eq_some hs
    exact ⟨bs, hb, by rw [hn], rfl, hn⟩
  next => cases h

theorem takes_skip (b : UInt8) : skip.Takes [b] () := fun _ _ => rfl

theorem yieldsAt_skip (b : UInt8) (bs : Bytes) (position : Nat) :
    skip.YieldsAt ⟨b :: bs, position⟩ fun b' _ => b' = [b] := by
  intro hform c' h
  obtain ⟨⟩ := hform
  cases h
  exact ⟨[b], rfl, rfl, rfl⟩

theorem Begins.append {b : Bytes} {l : Lead} (h : Begins b l) (b' : Bytes) :
    Begins (b ++ b') l := by
  intro rest position
  rw [List.append_assoc]
  exact h (b' ++ rest) position

theorem Begins.takes {f : Lead → Reader α} {b : Bytes} {l : Lead} {a : α} (hb : Begins b l)
    (hf : (f l).Takes b a) : (lead >>= f).Takes b a := by
  intro rest position
  rw [bind_apply, hb]
  exact hf rest position

theorem Begins.refuses {f : Lead → Reader α} {b : Bytes} {l : Lead} {e : DecodingError}
    (hb : Begins b l) (hf : (f l).Refuses b e) : (lead >>= f).Refuses b e := by
  intro rest position
  rw [bind_apply, hb]
  exact hf rest position

theorem lead_eq_ok {c c' : Cursor} {l : Lead} (h : lead c = .ok (l, c')) :
    c' = c ∧ ∃ b bs, c.rest = b :: bs ∧ l = Lead.ofByte b := by
  unfold lead at h
  split at h
  next => cases h
  next b bs hc =>
    split at h
    · cases h
    · cases h
      exact ⟨rfl, b, bs, hc, rfl⟩

/-- A reader that looks at the next item first need only be judged on each initial byte. -/
theorem yields_lead {f : Lead → Reader α} {form : Bytes → α → Prop}
    (h : ∀ b bs position, (f (Lead.ofByte b)).YieldsAt ⟨b :: bs, position⟩ form) :
    (lead >>= f).Yields form := by
  intro c a c'' ha
  obtain ⟨l, c', hl, ha⟩ := bind_eq_ok.mp ha
  obtain ⟨rfl, b, bs, hc, rfl⟩ := lead_eq_ok hl
  obtain ⟨rest, position⟩ := c'
  obtain rfl : rest = b :: bs := hc
  exact h b bs position a c'' ha

theorem lead_cons {b : UInt8} {bs : Bytes} (position : Nat)
    (h : looksAhead b = true → bs ≠ []) :
    lead ⟨b :: bs, position⟩ = .ok (Lead.ofByte b, ⟨b :: bs, position⟩) := by
  have hn : (looksAhead b && bs.isEmpty) = false := by
    cases hl : looksAhead b
    · rfl
    · simpa using h hl
  simp [lead, hn]

theorem begins_byte {b : UInt8} {l : Lead} (hb : Lead.ofByte b = l) (hl : looksAhead b = false) :
    Begins [b] l := by
  intro rest position
  rw [List.singleton_append, lead_cons position (by simp [hl]), hb]

theorem looksAhead_initial {major : Major} {n : Nat} (h : n < 24) :
    looksAhead (initial major n) = false := by
  have hb := initial_toNat major (show n < 32 by omega)
  have hle : ¬(0x38 ≤ initial major n ∧ initial major n ≤ 0x3b) := by
    simp only [UInt8.le_iff_toNat_le, hb]
    cases major <;> simp [Major.code] <;> omega
  simpa [looksAhead] using hle

theorem takes_argument {major : Major} {hd : Bytes} {n : Nat} (h : IsHead major hd n) :
    ∃ form, Begins hd (.item major form) ∧ (argument form).Takes hd n := by
  cases h with
  | inline h =>
    refine ⟨.inline n, begins_byte (ofByte_initial major ?_ (by omega)) (looksAhead_initial h), ?_⟩
    · simp [Argument.ofInfo?, h]
    · exact (takes_skip _).bind (takes_pure n)
  | @following info digits h =>
    have hne : digits ≠ [] := by
      intro heq
      subst heq
      simp [widths] at h
    refine ⟨.following digits.length, ?_, ?_⟩
    · intro rest position
      rw [List.cons_append, lead_cons position (by simp [hne]),
        ofByte_initial major (ofInfo?_of_mem_widths h) (info_lt_of_mem_widths h)]
    · exact (takes_skip _).bind ((takes_take digits).map Bytes.toNat)

theorem yieldsAt_argument {major : Major} {form : Argument} {b : UInt8}
    (h : Lead.ofByte b = .item major form) (bs : Bytes) (position : Nat) :
    (argument form).YieldsAt ⟨b :: bs, position⟩ (IsHead major) := by
  obtain ⟨info, rfl, hi⟩ := ofByte_eq_item h
  unfold argument
  rcases ofInfo?_eq_some hi with ⟨hn, rfl⟩ | ⟨width, hw, rfl⟩
  · refine (yieldsAt_skip _ bs position).bind (fun _ => yields_pure info) ?_
    intro b' _ b'' n heq hform
    subst heq
    obtain ⟨rfl, rfl⟩ := hform
    exact .inline hn
  · refine (yieldsAt_skip _ bs position).bind (fun _ c => (yields_take width c).map
      (g := Bytes.toNat) (H := fun d n => d.length = width ∧ n = Bytes.toNat d) ?_) ?_
    · intro d _ hform
      obtain ⟨rfl, hd⟩ := hform
      exact ⟨hd, rfl⟩
    · intro b' _ d n heq hform
      subst heq
      obtain ⟨rfl, rfl⟩ := hform
      exact .following hw

end Cose.Reader
