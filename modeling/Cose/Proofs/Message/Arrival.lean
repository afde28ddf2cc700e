import Cose.Proofs.Message.Depth
import Cose.Proofs.Session

namespace Cose

open Cbor Reader

namespace Reader

variable {α β : Type}

/-- Whatever the reader gives on an input that begins with `b` has the property. -/
def Gives (r : Reader α) (b : Bytes) (P : α → Prop) : Prop :=
  ∀ rest position a c, r ⟨b ++ rest, position⟩ = .ok (a, c) → P a

theorem Takes.gives {r : Reader α} {f : α → Reader β} {b b' : Bytes} {a : α} {P : β → Prop}
    (hr : r.Takes b a) (hf : (f a).Gives b' P) : (r >>= f).Gives (b ++ b') P := by
  intro rest position x c hx
  rw [bind_apply, List.append_assoc, hr] at hx
  exact hf rest _ x c hx

theorem Refuses.gives {r : Reader α} {b : Bytes} {e : DecodingError} (hr : r.Refuses b e)
    (P : α → Prop) : r.Gives b P := by
  intro rest position x c hx
  rw [hr] at hx
  cases hx

theorem Returns.gives {r : Reader α} {b : Bytes} {a : α} {e : DecodingError} {p : Prop}
    [Decidable p] (hr : r.Returns b (if p then .ok a else .error e)) : r.Gives b (· = a) := by
  intro rest position x c hx
  split at hr
  next =>
    cases (hr rest position).symm.trans hx
    rfl
  next => cases (hr rest position).symm.trans hx

theorem gives_map {r : Reader α} {g : α → β} {P : β → Prop} (h : ∀ a, P (g a)) (b : Bytes) :
    (r >>= fun a => pure (g a)).Gives b P := by
  intro rest position x c hx
  obtain ⟨a, c', -, hx⟩ := bind_eq_ok.mp hx
  cases hx
  exact h a

end Reader

/-- A protected header that is written from a map is read as that map, if it is read at all. -/
theorem ProtectedHeader.eq_of_decodeHeader {m n : LabelMap}
    (fits : (ofMap m).bytes.length < 2 ^ 64) (h : LabelMap.decodeHeader (ofMap m).bytes = .ok n) :
    n = m := by
  rw [decodeHeader_ofMap fits] at h
  split at h
  next =>
    cases h
    rfl
  next => cases h

namespace Headers

theorem map_eq {h : Headers} {m n : LabelMap} (heq : h = ⟨.ofMap m, n⟩) :
    h.protectedHeader.map = m := by
  rw [heq]
  rfl

theorem bytes_eq {h : Headers} {m n : LabelMap} (heq : h = ⟨.ofMap m, n⟩) :
    h.protectedHeader.bytes = (ProtectedHeader.ofMap m).bytes := by
  rw [heq]

/-- The protected map is the one that the bytes beside it stand for. -/
def Faithful (h : Headers) : Prop :=
  LabelMap.decodeHeader h.protectedHeader.bytes = .ok h.protectedHeader.map

theorem gives_read {α : Type} {h : Headers} {f : Headers → Reader α} {b : Bytes} {P : α → Prop}
    (hf : h.Faithful) (fits : h.encode.length < 2 ^ 64) (hg : (f h).Gives b P) :
    (Headers.read >>= f).Gives (h.encode ++ b) P := by
  have hr := returns_read (.inl hf) fits
  split at hr
  next => exact Takes.gives hr hg
  next => exact ((Refuses.bind hr f).append b).gives P

end Headers

theorem Sign1.gives_read {m : Sign1} (hf : m.toHeaders.Faithful) (fits : m.encode.length < 2 ^ 64) :
    Sign1.read.Gives m.encode (· = m) := by
  have own := Headers.returns_read (.inl hf) (Message.length_headers_lt (k := .sign1) fits)
  exact (returns_read fits own).gives

theorem Mac0.gives_read {m : Mac0} (hf : m.toHeaders.Faithful) (fits : m.encode.length < 2 ^ 64) :
    Mac0.read.Gives m.encode (· = m) := by
  have own := Headers.returns_read (.inl hf) (Message.length_headers_lt (k := .mac0) fits)
  exact (returns_read fits own).gives

theorem Encrypt0.gives_read {m : Encrypt0} (hf : m.toHeaders.Faithful)
    (fits : m.encode.length < 2 ^ 64) : Encrypt0.read.Gives m.encode (· = m) := by
  have own := Headers.returns_read (.inl hf) (Message.length_headers_lt (k := .encrypt0) fits)
  exact (returns_read fits own).gives

theorem Sign.gives_read {m : Sign} (hf : m.toHeaders.Faithful) (hne : m.signatures ≠ [])
    (hss : ∀ s ∈ m.signatures, s.toHeaders.Faithful) (fits : m.encode.length < 2 ^ 64) :
    Sign.read.Gives m.encode (· = m) := by
  have own := Headers.returns_read (.inl hf) (Message.length_headers_lt (k := .sign) fits)
  have each (s : Signature) (hs : s ∈ m.signatures) (hfits : s.encode.length < 2 ^ 64) :=
    Signature.returns_read hfits
      (Headers.returns_read (.inl (hss s hs)) (Message.length_headers_lt (k := .signature) hfits))
  exact (returns_read (R := fun s => s.toHeaders.Shallow) fits hne own each).gives

theorem Mac.gives_read {m : Mac} (hf : m.toHeaders.Faithful) (fits : m.encode.length < 2 ^ 64)
    (max : Nat) :
    (Mac.read max).Gives m.encode fun n => ∃ rs, n = { m with recipients := rs } := by
  simp only [encode, List.append_assoc, List.length_append] at fits ⊢
  refine (takes_arrayOf_encode (by decide) name).gives ?_
  refine Headers.gives_read hf (by omega) ?_
  refine (takes_bytesOrNull (by omega) "payload").gives ?_
  refine (takes_bytes_encode (by omega) "tag").gives ?_
  exact gives_map (g := fun rs => ({ m with recipients := rs } : Mac)) (fun rs => ⟨rs, rfl⟩) _

theorem Encrypt.gives_read {m : Encrypt} (hf : m.toHeaders.Faithful)
    (fits : m.encode.length < 2 ^ 64) (max : Nat) :
    (Encrypt.read max).Gives m.encode fun n => ∃ rs, n = { m with recipients := rs } := by
  simp only [encode, List.append_assoc, List.length_append] at fits ⊢
  refine (takes_arrayOf_encode (by decide) name).gives ?_
  refine Headers.gives_read hf (by omega) ?_
  refine (takes_bytesOrNull (by omega) "ciphertext").gives ?_
  exact gives_map (g := fun rs => ({ m with recipients := rs } : Encrypt)) (fun rs => ⟨rs, rfl⟩) _

namespace Message

theorem of_decodeWithin {k : Kind} {m arrived : k.Body} {max : Nat} {P : k.Body → Prop}
    (hg : (k.read max).Gives (encode m) P) (h : decodeWithin max k (encode m) = .ok arrived) :
    P arrived := by
  rw [decodeWithin, encode_ne_nil] at h
  obtain ⟨c, hc, -⟩ := complete_eq_ok.mp h
  obtain ⟨⟨⟩, c', ht, hr⟩ := bind_eq_ok.mp hc
  have htag := readTag_encode m [] 0
  rw [List.append_nil, ht] at htag
  cases htag
  rw [← List.append_nil (encode m)] at hr
  exact hg [] 0 arrived c hr

/-- What can arrive of a structure: itself, or what its encoding is read as. -/
def Received {k : Kind} (m arrived : k.Body) : Prop :=
  arrived = m ∨ decode k (encode m) = .ok arrived

namespace Draft

theorem headers_eq_ok {k : Kind} {d : Draft k} {m : LabelMap} {h : Headers}
    (hd : d.protectedSlot = .bytes (ProtectedHeader.ofMap m).bytes) (hh : d.headers = .ok h) :
    h.Faithful ∧ (h.encode.length < 2 ^ 64 → h = ⟨.ofMap m, d.unprotected⟩) := by
  obtain ⟨p, hp, hh⟩ := eq_ok_of_bind hh
  cases hh
  rw [hd] at hp
  obtain ⟨n, hn, hp⟩ := eq_ok_of_bind (eq_ok_of_mapError hp)
  cases hp
  refine ⟨hn, fun fits => ?_⟩
  rw [Headers.encode, List.length_append] at fits
  have hl := length_le_length_bytes (ProtectedHeader.ofMap m).bytes
  dsimp only at fits
  cases ProtectedHeader.eq_of_decodeHeader (by omega) hn
  rfl

theorem eq_of_required {α : Type} {field : String} {o : Option α} {a : α}
    (h : required field o = .ok a) : o = some a := by
  cases o with
  | none => cases h
  | some b =>
    cases h
    rfl

theorem nonempty_eq_ok_iff {α : Type} {field : String} {list : List α} :
    nonempty field list = .ok () ↔ list ≠ [] := by
  cases list <;> simp [nonempty]

theorem build_sign1 {d : Draft .sign1} {m : Sign1} (h : d.build = .ok m) :
    d.headers = .ok m.toHeaders ∧ d.content.resolve "payload" = .ok m.payload ∧
      d.token = some m.signature := by
  obtain ⟨payload, hp, h⟩ := eq_ok_of_bind h
  obtain ⟨token, ht, h⟩ := eq_ok_of_bind h
  obtain ⟨headers, hh, h⟩ := eq_ok_of_bind h
  cases h
  exact ⟨hh, eq_ok_of_mapError hp, eq_of_required (eq_ok_of_mapError ht)⟩

theorem build_signature {d : Draft .signature} {s : Signature} (h : d.build = .ok s) :
    d.headers = .ok s.toHeaders ∧ d.token = some s.signature := by
  obtain ⟨token, ht, h⟩ := eq_ok_of_bind h
  obtain ⟨headers, hh, h⟩ := eq_ok_of_bind h
  cases h
  exact ⟨hh, eq_of_required (eq_ok_of_mapError ht)⟩

theorem build_sign {d : Draft .sign} {m : Sign} (h : d.build = .ok m) :
    d.headers = .ok m.toHeaders ∧ d.content.resolve "payload" = .ok m.payload ∧
      d.parts = m.signatures ∧ m.signatures ≠ [] := by
  obtain ⟨payload, hp, h⟩ := eq_ok_of_bind h
  obtain ⟨⟨⟩, hn, h⟩ := eq_ok_of_bind h
  obtain ⟨headers, hh, h⟩ := eq_ok_of_bind h
  cases h
  exact ⟨hh, eq_ok_of_mapError hp, rfl, nonempty_eq_ok_iff.mp (eq_ok_of_mapError hn)⟩

theorem build_mac0 {d : Draft .mac0} {m : Mac0} (h : d.build = .ok m) :
    d.headers = .ok m.toHeaders ∧ d.content.resolve "payload" = .ok m.payload ∧
      d.token = some m.tag := by
  obtain ⟨payload, hp, h⟩ := eq_ok_of_bind h
  obtain ⟨token, ht, h⟩ := eq_ok_of_bind h
  obtain ⟨headers, hh, h⟩ := eq_ok_of_bind h
  cases h
  exact ⟨hh, eq_ok_of_mapError hp, eq_of_required (eq_ok_of_mapError ht)⟩

theorem depth_le_of_shallow {level : Nat} {rs : List Recipient} (h : shallow level rs = .ok ()) :
    level + Recipient.depthOfList rs ≤ Recipient.maxDepth := by
  unfold shallow at h
  split at h
  next => cases h
  next hle => exact Nat.le_of_not_lt hle

theorem build_mac {d : Draft .mac} {m : Mac} (h : d.build = .ok m) :
    d.headers = .ok m.toHeaders ∧ d.content.resolve "payload" = .ok m.payload ∧
      d.token = some m.tag ∧ d.parts = m.recipients ∧ m.recipients ≠ [] ∧
      Recipient.depthOfList m.recipients ≤ Recipient.maxDepth := by
  obtain ⟨payload, hp, h⟩ := eq_ok_of_bind h
  obtain ⟨token, ht, h⟩ := eq_ok_of_bind h
  obtain ⟨⟨⟩, hn, h⟩ := eq_ok_of_bind h
  obtain ⟨⟨⟩, hs, h⟩ := eq_ok_of_bind h
  obtain ⟨headers, hh, h⟩ := eq_ok_of_bind h
  cases h
  have hdepth := depth_le_of_shallow (eq_ok_of_mapError hs)
  rw [Nat.zero_add] at hdepth
  exact ⟨hh, eq_ok_of_mapError hp, eq_of_required (eq_ok_of_mapError ht), rfl,
    nonempty_eq_ok_iff.mp (eq_ok_of_mapError hn), hdepth⟩

theorem build_encrypt0 {d : Draft .encrypt0} {m : Encrypt0} (h : d.build = .ok m) :
    d.headers = .ok m.toHeaders ∧ d.content.resolve "ciphertext" = .ok m.ciphertext := by
  obtain ⟨ciphertext, hc, h⟩ := eq_ok_of_bind h
  obtain ⟨headers, hh, h⟩ := eq_ok_of_bind h
  cases h
  exact ⟨hh, eq_ok_of_mapError hc⟩

theorem build_encrypt {d : Draft .encrypt} {m : Encrypt} (h : d.build = .ok m) :
    d.headers = .ok m.toHeaders ∧ d.content.resolve "ciphertext" = .ok m.ciphertext ∧
      d.parts = m.recipients ∧ m.recipients ≠ [] ∧
      Recipient.depthOfList m.recipients ≤ Recipient.maxDepth := by
  obtain ⟨ciphertext, hc, h⟩ := eq_ok_of_bind h
  obtain ⟨⟨⟩, hn, h⟩ := eq_ok_of_bind h
  obtain ⟨⟨⟩, hs, h⟩ := eq_ok_of_bind h
  obtain ⟨headers, hh, h⟩ := eq_ok_of_bind h
  cases h
  have hdepth := depth_le_of_shallow (eq_ok_of_mapError hs)
  rw [Nat.zero_add] at hdepth
  exact ⟨hh, eq_ok_of_mapError hc, rfl, nonempty_eq_ok_iff.mp (eq_ok_of_mapError hn), hdepth⟩

theorem build_recipient {d : Draft .recipient} {r : Recipient} (h : d.build = .ok r) :
    d.headers = .ok r.toHeaders ∧ d.token = some r.ciphertext ∧ d.parts = r.recipients ∧
      r.depth ≤ Recipient.maxDepth := by
  obtain ⟨token, ht, h⟩ := eq_ok_of_bind h
  obtain ⟨⟨⟩, hs, h⟩ := eq_ok_of_bind h
  obtain ⟨headers, hh, h⟩ := eq_ok_of_bind h
  cases h
  exact ⟨hh, eq_of_required (eq_ok_of_mapError ht), rfl,
    depth_le_of_shallow (eq_ok_of_mapError hs)⟩

end Draft

theorem ContentSlot.resolve_ofContent {field : String} {bs : Bytes} {embedded : Option Bytes}
    (h : (ofContent bs).resolve field = .ok embedded) (detached : Option Bytes) :
    Content.resolve embedded detached = Content.resolve (some bs) detached := by
  cases bs with
  | nil =>
    cases h
    rfl
  | cons b bs =>
    cases h
    rfl

/-- A structure that was built arrives as it was built, with a protected header that is written from
the given map. -/
theorem Received.arrival {k : Kind} {d : Draft k} {m arrived : k.Body} {protectedMap : LabelMap}
    {P : k.Body → Prop} (hr : Received m arrived)
    (hd : d.protectedSlot = .bytes (ProtectedHeader.ofMap protectedMap).bytes)
    (hh : d.headers = .ok (headers m)) (fits : (encode m).length < 2 ^ 64) (hm : P m)
    (hg : (headers m).Faithful → (k.read Recipient.maxDepth).Gives (encode m) P) :
    P arrived ∧ headers m = ⟨.ofMap protectedMap, d.unprotected⟩ := by
  obtain ⟨hf, heq⟩ := Draft.headers_eq_ok hd hh
  have hl := length_headers_le m
  refine ⟨?_, heq (by omega)⟩
  rcases hr with rfl | hr
  · exact hm
  · exact of_decodeWithin (hg hf) hr

end Message

end Cose
