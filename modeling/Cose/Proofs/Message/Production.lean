import Cose.Proofs.Message.Arrival
import Cose.Proofs.Message.Rewriting
import Cose.Proofs.Message.Slot

namespace Cose

open Cbor Message

theorem Cbor.IsList.exists_of_mem {α : Type} {F : Bytes → α → Prop} {b : Bytes} {as : List α}
    (h : IsList F b as) {a : α} (ha : a ∈ as) : ∃ b, F b a := by
  cases h with
  | mk _ _ each =>
    obtain ⟨i, hi, rfl⟩ := List.mem_map.mp ha
    exact ⟨i.1, each i hi⟩

theorem Headers.Written.genuine {b : Bytes} {h : Headers} (hw : Headers.Written b h) :
    h.protectedHeader.Genuine := by
  cases hw with
  | mk _ _ sound => exact .inl sound.faithful

theorem Signature.Written.genuine {b : Bytes} {s : Signature} (h : Signature.Written b s) :
    s.protectedHeader.Genuine := by
  cases h with
  | mk _ headers _ => exact headers.genuine

theorem Recipient.Written.genuine {b : Bytes} {r : Recipient} (hw : Recipient.Written b r) :
    ∀ h ∈ r.allHeaders, h.protectedHeader.Genuine := by
  induction r using inductionOn generalizing b with
  | mk r ih =>
    rw [forall_allHeaders]
    cases hw with
    | leaf _ headers _ => exact ⟨headers.genuine, fun s hs => nomatch hs⟩
    | node _ headers _ recipients =>
      refine ⟨headers.genuine, fun s hs => ?_⟩
      obtain ⟨b, hb⟩ := recipients.exists_of_mem hs
      exact ih s hs hb

namespace Message

/-- The protected header of a structure that was read stands for its map, and so do those in it. -/
theorem WrittenArray.genuine {k : Kind} {b : Bytes} {m : k.Body} (hw : WrittenArray b m) :
    ∀ h ∈ allHeaders m, h.protectedHeader.Genuine := by
  rw [forall_allHeaders]
  cases k with
  | sign1 =>
    cases hw with
    | mk _ headers _ _ => exact ⟨headers.genuine, fun e he => nomatch he⟩
  | sign =>
    cases hw with
    | mk _ headers _ signatures =>
      refine ⟨headers.genuine, fun s hs h hh => ?_⟩
      obtain ⟨b, hb⟩ := signatures.exists_of_mem hs
      cases List.mem_singleton.mp hh
      exact hb.genuine
  | signature =>
    cases hw with
    | mk _ headers _ => exact ⟨headers.genuine, fun e he => nomatch he⟩
  | mac0 =>
    cases hw with
    | mk _ headers _ _ => exact ⟨headers.genuine, fun e he => nomatch he⟩
  | mac =>
    cases hw with
    | mk _ headers _ _ recipients =>
      refine ⟨headers.genuine, fun r hr => ?_⟩
      obtain ⟨b, hb⟩ := recipients.exists_of_mem hr
      exact hb.genuine
  | encrypt0 =>
    cases hw with
    | mk _ headers _ => exact ⟨headers.genuine, fun e he => nomatch he⟩
  | encrypt =>
    cases hw with
    | mk _ headers _ recipients =>
      refine ⟨headers.genuine, fun r hr => ?_⟩
      obtain ⟨b, hb⟩ := recipients.exists_of_mem hr
      exact hb.genuine
  | recipient => exact Recipient.forall_allHeaders.mp (Recipient.Written.genuine hw)

theorem genuine_of_decodeWithin {max : Nat} {k : Kind} {b : Bytes} {m : k.Body}
    (h : decodeWithin max k b = .ok m) : ∀ h ∈ allHeaders m, h.protectedHeader.Genuine := by
  obtain ⟨hw, -⟩ := decodeWithin_eq_ok.mp h
  cases hw with
  | array hw => exact hw.genuine
  | tagged _ _ hw => exact hw.genuine

theorem ProtectedSlot.resolve_eq_ok_iff {slot : ProtectedSlot} {p : ProtectedHeader} :
    slot.resolve = .ok p ↔ (∃ entries, slot = .map entries ∧ p = .ofMap entries) ∨
      ∃ bs, slot = .bytes bs ∧ p.bytes = bs ∧ LabelMap.decodeHeader bs = .ok p.map := by
  constructor
  · intro h
    cases slot with
    | unset => cases h
    | map entries =>
      cases h
      exact .inl ⟨entries, rfl, rfl⟩
    | bytes bs =>
      obtain ⟨hbytes, hmap⟩ := ProtectedHeader.ofBytes_eq_ok.mp (eq_ok_of_mapError h)
      rw [hbytes] at hmap
      exact .inr ⟨bs, rfl, hbytes, hmap⟩
  · rintro (⟨entries, rfl, rfl⟩ | ⟨bs, rfl, rfl, hmap⟩)
    · rfl
    · rw [ProtectedSlot.resolve, ProtectedHeader.ofBytes_eq_ok.mpr ⟨rfl, hmap⟩]
      rfl

theorem ProtectedSlot.genuine_of_resolve {slot : ProtectedSlot} {p : ProtectedHeader}
    (h : slot.resolve = .ok p) : p.Genuine := by
  rcases resolve_eq_ok_iff.mp h with ⟨m, -, rfl⟩ | ⟨bs, -, rfl, hread⟩
  · exact .inr ⟨m, rfl⟩
  · exact .inl hread

namespace Draft

variable {k : Kind} {d : Draft k}

theorem headers_eq_ok_iff {h : Headers} : d.headers = .ok h ↔
    d.protectedSlot.resolve = .ok h.protectedHeader ∧ h.unprotected = d.unprotected := by
  constructor
  · intro hd
    obtain ⟨p, hp, hd⟩ := eq_ok_of_bind hd
    cases hd
    exact ⟨hp, rfl⟩
  · rintro ⟨hp, hu⟩
    rw [headers, hp, ← hu]
    rfl

theorem genuine_of_headers {h : Headers} (hd : d.headers = .ok h) : h.protectedHeader.Genuine :=
  ProtectedSlot.genuine_of_resolve (headers_eq_ok_iff.mp hd).1

/-- What a built structure takes over from its draft, and what was checked about it. -/
theorem of_build {m : k.Body} (h : d.build = .ok m) : d.headers = .ok (Message.headers m) ∧
    d.parts = Message.parts m ∧ (k ∈ [.sign, .mac, .encrypt] → Message.parts m ≠ []) ∧
    recipientDepth m ≤ Recipient.maxDepth := by
  have empty (list : List Empty) : list = [] := by
    cases list with
    | nil => rfl
    | cons e _ => cases e
  cases k with
  | sign1 => exact ⟨(build_sign1 h).1, empty _, by simp, Nat.zero_le _⟩
  | sign =>
    obtain ⟨hheaders, -, hparts, hne⟩ := build_sign h
    exact ⟨hheaders, hparts, fun _ => hne, Nat.zero_le _⟩
  | signature => exact ⟨(build_signature h).1, empty _, by simp, Nat.zero_le _⟩
  | mac0 => exact ⟨(build_mac0 h).1, empty _, by simp, Nat.zero_le _⟩
  | mac =>
    obtain ⟨hheaders, -, -, hparts, hne, hdepth⟩ := build_mac h
    exact ⟨hheaders, hparts, fun _ => hne, hdepth⟩
  | encrypt0 => exact ⟨(build_encrypt0 h).1, empty _, by simp, Nat.zero_le _⟩
  | encrypt =>
    obtain ⟨hheaders, -, hparts, hne, hdepth⟩ := build_encrypt h
    exact ⟨hheaders, hparts, fun _ => hne, hdepth⟩
  | recipient =>
    obtain ⟨hheaders, -, hparts, hdepth⟩ := build_recipient h
    exact ⟨hheaders, hparts, by simp, hdepth⟩

/-- A structure is assembled if all that was put into it stands for its maps. -/
theorem assembled_of_build {m : k.Body}
    (given : ∀ part ∈ d.parts, ∀ h ∈ partHeaders part, h.protectedHeader.Genuine)
    (h : d.build = .ok m) : Assembled Recipient.maxDepth m := by
  obtain ⟨hheaders, hparts, nonempty, depth⟩ := of_build h
  refine ⟨?_, nonempty, depth⟩
  rw [forall_allHeaders, ← hparts]
  exact ⟨genuine_of_headers hheaders, given⟩

/-- The members that a field gives to the list of a draft. -/
def Step.given : Step k → List k.Part
  | .add part => [part]
  | .parts list => list
  | .protectedMap _ | .protectedBytes _ | .unprotected _ => []
  | .embed .. | .detach .. | .token .. => []

theorem mem_parts_attempt {s : Step k} {part : k.Part} (h : part ∈ (d.attempt s).parts) :
    part ∈ d.parts ∨ part ∈ s.given := by
  unfold attempt at h
  split at h
  next d' hd =>
    obtain ⟨rfl, -⟩ := eq_put_of_apply hd
    cases s with
    | add p => exact List.mem_append.mp h
    | parts list => exact .inr h
    | _ => exact .inl h
  next => exact .inl h

/-- All members of a draft's list were in it before or given by one of the fields. -/
theorem mem_parts_run {steps : List (Step k)} {part : k.Part} (h : part ∈ (d.run steps).parts) :
    part ∈ d.parts ∨ ∃ s ∈ steps, part ∈ s.given := by
  induction steps generalizing d with
  | nil => exact .inl h
  | cons s steps ih =>
    rcases ih h with h | ⟨t, ht, hgiven⟩
    · exact (mem_parts_attempt h).imp_right fun hgiven => ⟨s, List.mem_cons_self, hgiven⟩
    · exact .inr ⟨t, List.mem_cons_of_mem s ht, hgiven⟩

end Draft

end Message

/-- The signatures that come about: without any content, built, read on their own, and read as part
of a message. -/
inductive Signature.Obtained : Signature → Prop
  | blank : Obtained ⟨⟨.empty, .empty⟩, []⟩
  | built {d : Draft .signature} {s : Signature} (h : d.build = .ok s) : Obtained s
  | decoded {max : Nat} {b : Bytes} {s : Signature} (h : decodeWithin max .signature b = .ok s) :
      Obtained s
  | carried {max : Nat} {b : Bytes} {m : Sign} {s : Signature}
      (h : decodeWithin max .sign b = .ok m) (mem : s ∈ m.signatures) : Obtained s

/-- The recipients that come about: without any content, with a shared key, built of recipients that
came about before, read on their own or as part of a message, and as part of another recipient. -/
inductive Recipient.Obtained : Recipient → Prop
  | blank : Obtained ⟨⟨.empty, .empty⟩, [], []⟩
  | direct (keyId : Bytes) : Obtained (direct keyId)
  | built {d : Draft .recipient} {r : Recipient} (given : ∀ s ∈ d.parts, Obtained s)
      (h : d.build = .ok r) : Obtained r
  | decoded {max : Nat} {b : Bytes} {r : Recipient} (h : decodeWithin max .recipient b = .ok r) :
      Obtained r
  | carriedMac {max : Nat} {b : Bytes} {m : Mac} {r : Recipient}
      (h : decodeWithin max .mac b = .ok m) (mem : r ∈ m.recipients) : Obtained r
  | carriedEncrypt {max : Nat} {b : Bytes} {m : Encrypt} {r : Recipient}
      (h : decodeWithin max .encrypt b = .ok m) (mem : r ∈ m.recipients) : Obtained r
  | nested {r s : Recipient} (h : Obtained r) (mem : s ∈ r.recipients) : Obtained s

theorem ProtectedHeader.genuine_empty : empty.Genuine := .inl rfl

theorem Signature.Obtained.genuine {s : Signature} (hs : s.Obtained) :
    s.protectedHeader.Genuine := by
  cases hs with
  | blank => exact ProtectedHeader.genuine_empty
  | built h => exact Draft.genuine_of_headers (Draft.build_signature h).1
  | decoded h => exact (forall_allHeaders.mp (genuine_of_decodeWithin h)).1
  | carried h mem =>
    exact (forall_allHeaders.mp (genuine_of_decodeWithin h)).2 s mem _ (List.mem_singleton_self _)

theorem Recipient.Obtained.genuine {r : Recipient} (hr : r.Obtained) :
    ∀ h ∈ r.allHeaders, h.protectedHeader.Genuine := by
  induction hr with
  | blank => exact forall_allHeaders.mpr ⟨ProtectedHeader.genuine_empty, fun s hs => nomatch hs⟩
  | direct keyId => exact forall_allHeaders.mpr ⟨ProtectedHeader.genuine_empty, fun s hs => nomatch hs⟩
  | built _ h ih =>
    have hall := (Draft.assembled_of_build ih h).genuine
    exact forall_allHeaders.mpr (Message.forall_allHeaders.mp hall)
  | decoded h => exact forall_allHeaders.mpr (Message.forall_allHeaders.mp (genuine_of_decodeWithin h))
  | carriedMac h mem => exact (Message.forall_allHeaders.mp (genuine_of_decodeWithin h)).2 _ mem
  | carriedEncrypt h mem => exact (Message.forall_allHeaders.mp (genuine_of_decodeWithin h)).2 _ mem
  | nested _ mem ih => exact (forall_allHeaders.mp ih).2 _ mem

namespace Message

/-- A member of a list comes about. -/
def PartObtained : {k : Kind} → k.Part → Prop
  | .sign, s => Signature.Obtained s
  | .mac, r | .encrypt, r | .recipient, r => Recipient.Obtained r
  | .sign1, e | .signature, e | .mac0, e | .encrypt0, e => nomatch e

theorem genuine_of_partObtained {k : Kind} {part : k.Part} (hp : PartObtained part) :
    ∀ h ∈ partHeaders part, h.protectedHeader.Genuine := by
  cases k with
  | sign =>
    intro h hh
    cases List.mem_singleton.mp hh
    exact Signature.Obtained.genuine hp
  | mac | encrypt | recipient => exact Recipient.Obtained.genuine hp
  | sign1 | signature | mac0 | encrypt0 => cases part

end Message

end Cose
