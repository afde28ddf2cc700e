import Cose.Message
import Cose.Proofs.LabelMap.Reading
import Cose.Proofs.LabelMap.Writing
import Cose.Proofs.Session

namespace Cose

open Cbor Reader

namespace Aad

theorem Context.name_injective {c d : Context} (h : c.name = d.name) : c = d := by
  have found (c : Context) : all.find? (fun d => d.name = c.name) = some c := by
    cases c <;> rfl
  have hc := found c
  rw [h, found d] at hc
  exact (Option.some.inj hc).symm

/-- The byte strings of a structure in their order. -/
def parts (a : Aad) : List Bytes :=
  a.bodyProtected :: a.signProtected.toList ++ a.externalAad :: a.payload.toList

/-- Reads what a structure consists of: the text of its context, then its byte strings. -/
def readParts : Reader (Label × List Bytes) := do
  let count ← arrayLength "structure"
  let context ← Label.read "context"
  let parts ← times (count - 1) (bstr "part")
  return (context, parts)

theorem eq_of_expect {field : String} {wanted : Bool} {part part' : Option Bytes}
    (h : expect field wanted part = .ok part') : part' = part ∧ part.isSome = wanted := by
  unfold expect at h
  split at h
  next hw =>
    cases h
    exact ⟨rfl, hw⟩
  next => split at h <;> cases h

theorem of_encode {a : Aad} {x : Bytes} (h : a.encode = .ok x) :
    a.signProtected.isSome = a.context.hasSigner ∧ a.payload.isSome = a.context.hasPayload ∧
      x = head .array (1 + a.parts.length) ++
        (Cbor.text a.context.name ++ a.parts.flatMap Cbor.bytes) := by
  obtain ⟨signer, hs, h⟩ := eq_ok_of_bind h
  obtain ⟨payload, hp, h⟩ := eq_ok_of_bind h
  obtain ⟨rfl, signer_iff⟩ := eq_of_expect hs
  obtain ⟨rfl, payload_iff⟩ := eq_of_expect hp
  cases h
  exact ⟨signer_iff, payload_iff, List.append_assoc _ _ _⟩

theorem length_parts_le (a : Aad) : a.parts.length ≤ 4 := by
  cases hs : a.signProtected <;> cases hp : a.payload <;> simp [parts, hs, hp]

theorem takes_readParts {a : Aad} {x : Bytes} (h : a.encode = .ok x) (fits : x.length < 2 ^ 64) :
    readParts.Takes x (.text a.context.name, a.parts) := by
  obtain ⟨-, -, rfl⟩ := of_encode h
  simp only [List.length_append] at fits
  have hcount := a.length_parts_le
  have hname : (Bytes.ofText a.context.name).length < 2 ^ 64 := by
    simp only [Cbor.text, List.length_append] at fits
    omega
  have hparts : ∀ part ∈ a.parts, (bstr "part").Takes (Cbor.bytes part) part := by
    intro part hm
    have := length_le_of_mem_flatMap (f := Cbor.bytes) hm
    have := length_le_length_bytes part
    exact takes_bstr (bytes_isBytes (by omega)) _
  refine (takes_arrayLength (head_isHead .array (by omega)) _).bind ?_
  refine (Label.takes_read (.text (text_isText hname)) _).bind ?_
  rw [Nat.add_sub_cancel_left]
  exact (takes_times_encoded hparts).map _

/-- The shape of a structure is fixed by its context, so that its byte strings tell all fields. -/
theorem eq_of_parts {a b : Aad} (hc : a.context = b.context)
    (hs : a.signProtected.isSome = b.signProtected.isSome)
    (hp : a.payload.isSome = b.payload.isSome) (h : a.parts = b.parts) : a = b := by
  obtain ⟨c, body, signer, external, payload⟩ := a
  obtain ⟨c', body', signer', external', payload'⟩ := b
  cases signer <;> cases signer' <;> cases hs <;>
    cases payload <;> cases payload' <;> cases hp <;> simp_all [parts]

/-- Whatever follows them, encoded structures that agree agree in every field. -/
theorem encode_append_inj {a b : Aad} {x y rest rest' : Bytes} (hx : a.encode = .ok x)
    (hy : b.encode = .ok y) (hfx : x.length < 2 ^ 64) (hfy : y.length < 2 ^ 64)
    (h : x ++ rest = y ++ rest') : a = b ∧ rest = rest' := by
  obtain ⟨-, hparts, hrest⟩ := (takes_readParts hx hfx).unique (takes_readParts hy hfy) h
  obtain ⟨hname, hparts⟩ := Prod.mk.inj hparts
  have hc := Context.name_injective (Label.text.inj hname)
  obtain ⟨hsa, hpa, -⟩ := of_encode hx
  obtain ⟨hsb, hpb, -⟩ := of_encode hy
  exact ⟨eq_of_parts hc (by rw [hsa, hsb, hc]) (by rw [hpa, hpb, hc]) hparts, hrest⟩

theorem encode_eq_iff {a b : Aad} {x y : Bytes} (hx : a.encode = .ok x) (hy : b.encode = .ok y)
    (hfx : x.length < 2 ^ 64) (hfy : y.length < 2 ^ 64) : x = y ↔ a = b := by
  constructor
  · intro h
    have happend : x ++ [] = y ++ [] := congrArg (· ++ []) h
    exact (encode_append_inj hx hy hfx hfy happend).1
  · intro h
    subst h
    exact Except.ok.inj (hx.symm.trans hy)

theorem eq_of_prefix_encode {a b : Aad} {x y : Bytes} (hx : a.encode = .ok x)
    (hy : b.encode = .ok y) (hfx : x.length < 2 ^ 64) (hfy : y.length < 2 ^ 64)
    (h : x <+: y) : x = y := by
  obtain ⟨rest, h⟩ := h
  have hrest := (encode_append_inj hx hy hfx hfy (h.trans (List.append_nil y).symm)).2
  rw [← h, hrest, List.append_nil]

end Aad

/-- A message of one of the six kinds that authenticate something, with what is given beside it. -/
inductive Authentication
  | sign1 (m : Sign1) (external : Bytes) (detached : Option Bytes)
  | sign (m : Sign) (s : Signature) (external : Bytes) (detached : Option Bytes)
  | mac0 (m : Mac0) (external : Bytes) (detached : Option Bytes)
  | mac (m : Mac) (external : Bytes) (detached : Option Bytes)
  | encrypt0 (m : Encrypt0) (external : Bytes)
  | encrypt (m : Encrypt) (external : Bytes)

namespace Authentication

/-- The bytes that a signature or a tag covers, or that a ciphertext is bound to. -/
def data : Authentication → Except Error Bytes
  | sign1 m external detached => m.toBeSigned external detached
  | sign m s external detached => m.toBeSigned s external detached
  | mac0 m external detached => m.toBeMaced external detached
  | mac m external detached => m.toBeMaced external detached
  | encrypt0 m external => m.associatedData external
  | encrypt m external => m.associatedData external

def kind : Authentication → Message.Kind
  | sign1 .. => .sign1
  | sign .. => .sign
  | mac0 .. => .mac0
  | mac .. => .mac
  | encrypt0 .. => .encrypt0
  | encrypt .. => .encrypt

/-- The protected header of the message as it travels. -/
def body : Authentication → Bytes
  | sign1 m .. => m.protectedHeader.bytes
  | sign m .. => m.protectedHeader.bytes
  | mac0 m .. => m.protectedHeader.bytes
  | mac m .. => m.protectedHeader.bytes
  | encrypt0 m .. => m.protectedHeader.bytes
  | encrypt m .. => m.protectedHeader.bytes

/-- The protected header of the signer as it travels, where there are several. -/
def signer : Authentication → Option Bytes
  | sign _ s .. => some s.protectedHeader.bytes
  | _ => none

/-- The data that is authenticated without being part of the message. -/
def external : Authentication → Bytes
  | sign1 _ external _ | sign _ _ external _ | mac0 _ external _ | mac _ external _
  | encrypt0 _ external | encrypt _ external => external

/-- The content, embedded or detached, where it is not encrypted. -/
def content : Authentication → Option (Except ContentFault Bytes)
  | sign1 m _ detached => some (Content.resolve m.payload detached)
  | sign m _ _ detached => some (Content.resolve m.payload detached)
  | mac0 m _ detached => some (Content.resolve m.payload detached)
  | mac m _ detached => some (Content.resolve m.payload detached)
  | encrypt0 .. | encrypt .. => none

/-- What the authenticated bytes are for. -/
def context : Authentication → Aad.Context
  | sign1 .. => .signature1
  | sign .. => .signature
  | mac0 .. => .mac0
  | mac .. => .mac
  | encrypt0 .. => .encrypt0
  | encrypt .. => .encrypt

theorem context_eq_iff {s t : Authentication} : s.context = t.context ↔ s.kind = t.kind := by
  cases s <;> cases t <;> simp [context, kind]

theorem exists_aad {s : Authentication} {x : Bytes} (h : s.data = .ok x) :
    ∃ c, s.content = c.map .ok ∧
      (⟨s.context, s.body, s.signer, s.external, c⟩ : Aad).encode = .ok x := by
  have resolved {r : Except ContentFault Bytes} {aad : Bytes → Aad}
      (h : (do let payload ← r; (aad payload).encode : Except Error Bytes) = .ok x) :
      ∃ c, r = .ok c ∧ (aad c).encode = .ok x := by
    obtain ⟨c, hr, h⟩ := eq_ok_of_bind h
    exact ⟨c, eq_ok_of_mapError hr, eq_ok_of_mapError h⟩
  cases s with
  | encrypt0 m external => exact ⟨none, rfl, eq_ok_of_mapError (f := .draft) h⟩
  | encrypt m external => exact ⟨none, rfl, eq_ok_of_mapError (f := .draft) h⟩
  | _ =>
    obtain ⟨c, hr, h⟩ := resolved h
    exact ⟨some c, congrArg some hr, h⟩

end Authentication

/-- Encoded structures are equal only if they agree in every field, and none is a proper prefix of
another. So the bytes that two messages authenticate coincide exactly if the messages are of one
kind and agree in what is protected: in the protected headers as they travel, in the external data
and, unless it is encrypted, in the content. Structures longer than a head can announce are left
out. -/
theorem Aad.encode_separates :
    (∀ (a b : Aad) (x y : Bytes), a.encode = .ok x → b.encode = .ok y →
      x.length < 2 ^ 64 → y.length < 2 ^ 64 →
      (x = y ↔ a = b) ∧ (x <+: y ∨ y <+: x → x = y)) ∧
    (∀ (s t : Authentication) (x y : Bytes), s.data = .ok x → t.data = .ok y →
      x.length < 2 ^ 64 → y.length < 2 ^ 64 →
      (x = y ↔ s.kind = t.kind ∧ s.body = t.body ∧ s.signer = t.signer ∧
        s.external = t.external ∧ s.content = t.content)) := by
  constructor
  · intro a b x y hx hy hfx hfy
    refine ⟨encode_eq_iff hx hy hfx hfy, ?_⟩
    intro h
    rcases h with h | h
    · exact eq_of_prefix_encode hx hy hfx hfy h
    · exact (eq_of_prefix_encode hy hx hfy hfx h).symm
  · intro s t x y hs ht hfx hfy
    obtain ⟨c, hc, hx⟩ := Authentication.exists_aad hs
    obtain ⟨d, hd, hy⟩ := Authentication.exists_aad ht
    have hcontent : c = d ↔ s.content = t.content := by
      rw [hc, hd]
      exact (Option.map_injective fun _ _ => Except.ok.inj).eq_iff.symm
    rw [encode_eq_iff hx hy hfx hfy, ← Authentication.context_eq_iff, ← hcontent, Aad.mk.injEq]

/-- A byte that moves from one protected header to the next changes the encoding, and so does the
kind of a message that carries its content in another way. -/
theorem Aad.encode_separates_shifted :
    (∃ x y, (signature [0x01] [0x02, 0x03] [] [0x04]).encode = .ok x ∧
      (signature [0x01, 0x02] [0x03] [] [0x04]).encode = .ok y ∧
      x.length < 2 ^ 64 ∧ y.length < 2 ^ 64 ∧ x ≠ y ∧ ¬(x <+: y ∨ y <+: x)) ∧
    ∃ x y, (Authentication.mac ⟨⟨.empty, .empty⟩, none, [], []⟩ [] (some [0x2a])).data = .ok x ∧
      (Authentication.mac0 ⟨⟨.empty, .empty⟩, some [0x2a], []⟩ [] none).data = .ok y ∧
      x.length < 2 ^ 64 ∧ y.length < 2 ^ 64 ∧ x ≠ y := by
  constructor
  · refine ⟨_, _, rfl, rfl, by decide, by decide, ?_⟩
    have h := Aad.encode_separates.1 (signature [0x01] [0x02, 0x03] [] [0x04])
      (signature [0x01, 0x02] [0x03] [] [0x04]) _ _ rfl rfl (by decide) (by decide)
    have hne := mt h.1.mp (by decide)
    exact ⟨hne, fun hp => hne (h.2 hp)⟩
  · refine ⟨_, _, rfl, rfl, by decide, by decide, ?_⟩
    intro he
    have h := Aad.encode_separates.2 (.mac ⟨⟨.empty, .empty⟩, none, [], []⟩ [] (some [0x2a]))
      (.mac0 ⟨⟨.empty, .empty⟩, some [0x2a], []⟩ [] none) _ _ rfl rfl (by decide) (by decide)
    cases (h.mp he).1

end Cose
