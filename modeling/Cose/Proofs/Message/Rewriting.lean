import Cose.Proofs.Message.Contents
import Cose.Proofs.Message.Reading

namespace Cose

open Cbor

namespace Value

/-- A byte string, or the value that stands for there being none. -/
def bytesOrNull : Option Bytes → Value
  | some bs => .bytes bs
  | none => .null

theorem encode_bytes (bs : Bytes) : (Value.bytes bs).encode = Cbor.bytes bs := rfl

theorem encode_bytesOrNull (bs : Option Bytes) :
    (bytesOrNull bs).encode = Cbor.bytesOrNull bs := by
  cases bs <;> rfl

theorem written_bytesOrNull {b : Bytes} {bs : Option Bytes} (h : IsBytesOrNull b bs) :
    Written b (bytesOrNull bs) := by
  cases h with
  | bytes h => exact .bytes h
  | null => exact .null

end Value

/-- Both headers as items of an array. -/
def Headers.items (h : Headers) : List Value :=
  [.bytes h.protectedHeader.bytes, .map h.unprotected]

theorem Headers.flatMap_items (h : Headers) : h.items.flatMap Value.encode = h.encode := by
  simp only [items, List.flatMap_cons, List.flatMap_nil, List.append_nil, Value.encode_map]
  rfl

mutual

/-- A recipient as a plain value. -/
def Recipient.toValue : Recipient → Value
  | ⟨headers, ciphertext, []⟩ => .array (headers.items ++ [.bytes ciphertext])
  | ⟨headers, ciphertext, r :: rs⟩ =>
    .array (headers.items ++ [.bytes ciphertext, .array (r.toValue :: Recipient.toValues rs)])

def Recipient.toValues : List Recipient → List Value
  | [] => []
  | r :: rs => r.toValue :: Recipient.toValues rs

end

namespace Recipient

theorem toValues_eq (rs : List Recipient) : toValues rs = rs.map toValue := by
  induction rs with
  | nil => rfl
  | cons r rs ih => rw [toValues, ih, List.map_cons]

theorem toValue_of_ne_nil {h : Headers} {c : Bytes} {rs : List Recipient} (hne : rs ≠ []) :
    toValue ⟨h, c, rs⟩ = .array (h.items ++ [.bytes c, .array (rs.map toValue)]) := by
  cases rs with
  | nil => exact absurd rfl hne
  | cons r rs => rw [toValue, toValues_eq, List.map_cons]

end Recipient

def Signature.toValue (s : Signature) : Value :=
  .array (s.toHeaders.items ++ [.bytes s.signature])

namespace Message

/-- A structure as a plain value. -/
def toValue : {k : Kind} → k.Body → Value
  | .sign1, m => .array (m.toHeaders.items ++ [.bytesOrNull m.payload, .bytes m.signature])
  | .sign, m => .array (m.toHeaders.items ++ [.bytesOrNull m.payload,
      .array (m.signatures.map Signature.toValue)])
  | .signature, m => Signature.toValue m
  | .mac0, m => .array (m.toHeaders.items ++ [.bytesOrNull m.payload, .bytes m.tag])
  | .mac, m => .array (m.toHeaders.items ++ [.bytesOrNull m.payload, .bytes m.tag,
      .array (m.recipients.map Recipient.toValue)])
  | .encrypt0, m => .array (m.toHeaders.items ++ [.bytesOrNull m.ciphertext])
  | .encrypt, m => .array (m.toHeaders.items ++ [.bytesOrNull m.ciphertext,
      .array (m.recipients.map Recipient.toValue)])
  | .recipient, m => Recipient.toValue m

end Message

theorem Headers.encode_array (h : Headers) (vs : List Value) :
    (Value.array (h.items ++ vs)).encode =
      head .array (vs.length + 2) ++ (h.encode ++ vs.flatMap Value.encode) := by
  rw [Value.encode_array, List.flatMap_append, flatMap_items, List.length_append, Nat.add_comm]
  rfl

theorem Recipient.encode_toValue (r : Recipient) : r.toValue.encode = r.encode := by
  induction r using inductionOn with
  | mk r ih =>
    obtain ⟨headers, ciphertext, rs⟩ := r
    cases rs with
    | nil =>
      rw [toValue, Headers.encode_array, encode]
      simp [Value.encode_bytes]
    | cons s rs =>
      have hs := ih s List.mem_cons_self
      have hrs : (toValues rs).flatMap Value.encode = encodeItems rs := by
        rw [toValues_eq, encodeItems_eq, List.flatMap_map]
        exact List.flatMap_congr fun r hr => ih r (List.mem_cons_of_mem s hr)
      have hlist : (Value.array (s.toValue :: toValues rs)).encode =
          head .array (rs.length + 1) ++ (s.encode ++ encodeItems rs) := by
        rw [Value.encode_array, List.flatMap_cons, hs, hrs, List.length_cons, toValues_eq,
          List.length_map]
      rw [toValue, Headers.encode_array, encode]
      simp [Value.encode_bytes, hlist]

theorem Recipient.encode_array (rs : List Recipient) :
    (Value.array (rs.map toValue)).encode = encodeList rs := by
  rw [Value.encode_array, encodeList, encodeItems_eq, List.length_map, List.flatMap_map]
  exact congrArg _ (List.flatMap_congr fun r _ => r.encode_toValue)

theorem Signature.encode_toValue (s : Signature) : s.toValue.encode = s.encode := by
  rw [toValue, Headers.encode_array, encode]
  simp [Value.encode_bytes]

/-- A structure is written as the plain value that it amounts to. -/
theorem Message.encode_toValue {k : Kind} (m : k.Body) : (toValue m).encode = encode m := by
  cases k with
  | sign1 =>
    rw [toValue, Headers.encode_array, encode, Sign1.encode]
    simp [Value.encode_bytes, Value.encode_bytesOrNull]
  | sign =>
    have hlist : (Value.array (m.signatures.map Signature.toValue)).encode =
        head .array m.signatures.length ++ m.signatures.flatMap Signature.encode := by
      rw [Value.encode_array, List.length_map, List.flatMap_map]
      exact congrArg _ (List.flatMap_congr fun s _ => s.encode_toValue)
    rw [toValue, Headers.encode_array, encode, Sign.encode]
    simp [Value.encode_bytesOrNull, hlist]
  | signature => exact Signature.encode_toValue m
  | mac0 =>
    rw [toValue, Headers.encode_array, encode, Mac0.encode]
    simp [Value.encode_bytes, Value.encode_bytesOrNull]
  | mac =>
    rw [toValue, Headers.encode_array, encode, Mac.encode]
    simp [Value.encode_bytes, Value.encode_bytesOrNull, Recipient.encode_array]
  | encrypt0 =>
    rw [toValue, Headers.encode_array, encode, Encrypt0.encode]
    simp [Value.encode_bytesOrNull]
  | encrypt =>
    rw [toValue, Headers.encode_array, encode, Encrypt.encode]
    simp [Value.encode_bytesOrNull, Recipient.encode_array]
  | recipient => exact Recipient.encode_toValue m

theorem Cbor.IsList.ne_nil {α : Type} {F : Bytes → α → Prop} {b : Bytes} {as : List α}
    (h : IsList F b as) : as ≠ [] := by
  cases h with
  | mk _ nonempty _ => simpa using nonempty

section

variable {hd b₁ : Bytes} {h : Headers}

/-- An array that opens with headers stands for a plain value if its other items do. -/
theorem Headers.Written.array (items : List (Bytes × Value))
    (array : IsHead .array hd (items.length + 2)) (headers : Headers.Written b₁ h)
    (rest : ∀ i ∈ items, Value.Written i.1 i.2) :
    Value.Written (hd ++ (b₁ ++ items.flatMap (·.1))) (.array (h.items ++ items.map (·.2))) := by
  cases headers with
  | @mk p u _ own unprotected _ =>
    have hw := @Value.Written.array hd
      ((p, .bytes h.protectedHeader.bytes) :: (u, .map h.unprotected) :: items) array
      (List.forall_mem_cons.mpr ⟨.bytes own, List.forall_mem_cons.mpr ⟨unprotected, rest⟩⟩)
    rwa [List.flatMap_cons, List.flatMap_cons, ← List.append_assoc p] at hw

theorem written_list {α : Type} {F : Bytes → α → Prop} {f : α → Value} {b : Bytes} {as : List α}
    (list : IsList F b as) (each : ∀ a ∈ as, ∀ b, F b a → Value.Written b (f a)) :
    Value.Written b (.array (as.map f)) := by
  cases list with
  | @mk hd items array _ written =>
    have hw := @Value.Written.array hd (items.map fun i => (i.1, f i.2)) (by rwa [List.length_map])
      (by
        rw [List.forall_mem_map]
        exact fun i hi => each i.2 (List.mem_map_of_mem hi) i.1 (written i hi))
    rw [List.flatMap_map, List.map_map] at hw
    rwa [List.map_map]

end

theorem Recipient.Written.toValue {b : Bytes} {r : Recipient} (h : Written b r) :
    Value.Written b r.toValue := by
  induction r using inductionOn generalizing b with
  | mk r ih =>
    cases h with
    | @leaf hd b₁ b₂ c h array headers ciphertext =>
      have hw := headers.array [(b₂, .bytes c)] array
        (List.forall_mem_singleton.mpr (.bytes ciphertext))
      simpa [Recipient.toValue] using hw
    | @node hd b₁ b₂ b₃ c h rs array headers ciphertext recipients =>
      have hlist := written_list recipients fun s hs _ => ih s hs
      have hw := headers.array [(b₂, .bytes c), (b₃, .array (rs.map Recipient.toValue))] array
        (by simp [hlist, Value.Written.bytes ciphertext])
      rw [toValue_of_ne_nil recipients.ne_nil]
      simpa using hw

theorem Signature.Written.toValue {b : Bytes} {s : Signature} (h : Written b s) :
    Value.Written b s.toValue := by
  cases h with
  | @mk hd b₁ b₂ _ array headers signature =>
    have hw := headers.array [(b₂, .bytes s.signature)] array
      (List.forall_mem_singleton.mpr (.bytes signature))
    simpa [Signature.toValue] using hw

namespace Message

theorem WrittenArray.toValue {k : Kind} {b : Bytes} {m : k.Body} (h : WrittenArray b m) :
    Value.Written b (toValue m) := by
  cases k with
  | sign1 =>
    cases h with
    | @mk hd b₁ b₂ b₃ _ array headers payload signature =>
      have hw := headers.array [(b₂, .bytesOrNull m.payload), (b₃, .bytes m.signature)] array
        (by simp [Value.written_bytesOrNull payload, Value.Written.bytes signature])
      simpa [Message.toValue] using hw
  | sign =>
    cases h with
    | @mk hd b₁ b₂ b₃ _ array headers payload signatures =>
      have hlist := written_list signatures fun s _ _ => Signature.Written.toValue
      have hw := headers.array [(b₂, .bytesOrNull m.payload),
        (b₃, .array (m.signatures.map Signature.toValue))] array
        (by simp [Value.written_bytesOrNull payload, hlist])
      simpa [Message.toValue] using hw
  | signature => exact Signature.Written.toValue h
  | mac0 =>
    cases h with
    | @mk hd b₁ b₂ b₃ _ array headers payload tag =>
      have hw := headers.array [(b₂, .bytesOrNull m.payload), (b₃, .bytes m.tag)] array
        (by simp [Value.written_bytesOrNull payload, Value.Written.bytes tag])
      simpa [Message.toValue] using hw
  | mac =>
    cases h with
    | @mk hd b₁ b₂ b₃ b₄ _ array headers payload tag recipients =>
      have hlist := written_list recipients fun r _ _ => Recipient.Written.toValue
      have hw := headers.array [(b₂, .bytesOrNull m.payload), (b₃, .bytes m.tag),
        (b₄, .array (m.recipients.map Recipient.toValue))] array
        (by simp [Value.written_bytesOrNull payload, Value.Written.bytes tag, hlist])
      simpa [Message.toValue] using hw
  | encrypt0 =>
    cases h with
    | @mk hd b₁ b₂ _ array headers ciphertext =>
      have hw := headers.array [(b₂, .bytesOrNull m.ciphertext)] array
        (by simp [Value.written_bytesOrNull ciphertext])
      simpa [Message.toValue] using hw
  | encrypt =>
    cases h with
    | @mk hd b₁ b₂ b₃ _ array headers ciphertext recipients =>
      have hlist := written_list recipients fun r _ _ => Recipient.Written.toValue
      have hw := headers.array [(b₂, .bytesOrNull m.ciphertext),
        (b₃, .array (m.recipients.map Recipient.toValue))] array
        (by simp [Value.written_bytesOrNull ciphertext, hlist])
      simpa [Message.toValue] using hw
  | recipient => exact Recipient.Written.toValue h

end Message

theorem Cbor.IsBytes.written {b bs : Bytes} (h : IsBytes b bs) : IsBytes (bytes bs) bs := by
  cases h with
  | mk h => exact bytes_isBytes h.argument_lt

theorem Cbor.IsBytesOrNull.written {b : Bytes} {bs : Option Bytes} (h : IsBytesOrNull b bs) :
    IsBytesOrNull (bytesOrNull bs) bs := by
  cases h with
  | bytes h => exact .bytes h.written
  | null => exact .null

theorem Cbor.IsList.written {α : Type} {F : Bytes → α → Prop} {encode : α → Bytes} {b : Bytes}
    {as : List α} (h : IsList F b as) (each : ∀ a ∈ as, ∀ b, F b a → F (encode a) a) :
    IsList F (head .array as.length ++ as.flatMap encode) as := by
  cases h with
  | @mk hd items array nonempty written =>
    have hl := @IsList.mk α F (head .array items.length)
      (items.map fun i => (encode i.2, i.2)) (by
        rw [List.length_map]
        exact head_isHead .array array.argument_lt)
      (by simpa using nonempty) (by
        rw [List.forall_mem_map]
        exact fun i hi => each i.2 (List.mem_map_of_mem hi) i.1 (written i hi))
    rw [List.flatMap_map, List.map_map] at hl
    rwa [List.length_map, List.flatMap_map]

theorem Headers.Written.written {b : Bytes} {h : Headers} (hw : Headers.Written b h) :
    Headers.Written h.encode h := by
  cases hw with
  | mk own unprotected sound =>
    have hmap := unprotected.written_encode
    rw [Value.encode_map] at hmap
    exact .mk own.written hmap sound

theorem Recipient.Written.written {b : Bytes} {r : Recipient} (h : Written b r) :
    Written r.encode r := by
  induction r using inductionOn generalizing b with
  | mk r ih =>
    cases h with
    | @leaf hd b₁ b₂ c h array headers ciphertext =>
      rw [encode]
      simp only [List.append_assoc]
      exact .leaf (head_isHead .array (by decide)) headers.written ciphertext.written
    | @node hd b₁ b₂ b₃ c h rs array headers ciphertext recipients =>
      have hlist := recipients.written fun s hs _ => ih s hs
      rw [encode_eq, if_neg recipients.ne_nil, if_neg recipients.ne_nil, encodeList,
        encodeItems_eq]
      exact .node (head_isHead .array (by decide)) headers.written ciphertext.written hlist

theorem Recipient.written_list {b : Bytes} {rs : List Recipient} (h : IsList Recipient.Written b rs) :
    IsList Recipient.Written (encodeList rs) rs := by
  rw [encodeList, encodeItems_eq]
  exact h.written fun _ _ _ => Recipient.Written.written

theorem Signature.Written.written {b : Bytes} {s : Signature} (h : Written b s) :
    Written s.encode s := by
  cases h with
  | mk array headers signature =>
    rw [encode, List.append_assoc]
    exact .mk (head_isHead .array (by decide)) headers.written signature.written

namespace Message

theorem WrittenArray.written {k : Kind} {b : Bytes} {m : k.Body} (h : WrittenArray b m) :
    WrittenArray (encode m) m := by
  have isHead {n : Nat} (hn : n < 2 ^ 64) := head_isHead .array hn
  cases k with
  | sign1 =>
    cases h with
    | mk array headers payload signature =>
      rw [encode, Sign1.encode]
      simp only [List.append_assoc]
      exact .mk (isHead (by decide)) headers.written payload.written signature.written
  | sign =>
    cases h with
    | mk array headers payload signatures =>
      rw [encode, Sign.encode]
      simp only [List.append_assoc]
      exact .mk (isHead (by decide)) headers.written payload.written
        (signatures.written fun _ _ _ => Signature.Written.written)
  | signature => exact Signature.Written.written h
  | mac0 =>
    cases h with
    | mk array headers payload tag =>
      rw [encode, Mac0.encode]
      simp only [List.append_assoc]
      exact .mk (isHead (by decide)) headers.written payload.written tag.written
  | mac =>
    cases h with
    | mk array headers payload tag recipients =>
      rw [encode, Mac.encode]
      simp only [List.append_assoc]
      exact .mk (isHead (by decide)) headers.written payload.written tag.written
        (Recipient.written_list recipients)
  | encrypt0 =>
    cases h with
    | mk array headers ciphertext =>
      rw [encode, Encrypt0.encode, List.append_assoc]
      exact .mk (isHead (by decide)) headers.written ciphertext.written
  | encrypt =>
    cases h with
    | mk array headers ciphertext recipients =>
      rw [encode, Encrypt.encode]
      simp only [List.append_assoc]
      exact .mk (isHead (by decide)) headers.written ciphertext.written
        (Recipient.written_list recipients)
  | recipient => exact Recipient.Written.written h

theorem Written.written {k : Kind} {b : Bytes} {m : k.Body} (h : Written b m) :
    Written (encode m) m := by
  cases h with
  | array h => exact .array h.written
  | tagged _ _ h => exact .array h.written

theorem decodeWithin_eq_ok {max : Nat} {k : Kind} {b : Bytes} {m : k.Body} :
    decodeWithin max k b = .ok m ↔ Written b m ∧ recipientDepth m ≤ max := by
  cases b with
  | nil =>
    constructor
    · intro h
      cases h
    · intro h
      exact absurd h.1 not_written_nil
  | cons x xs => exact (reads_readTag (reads_read max k)).complete_eq_ok_iff k.name (x :: xs) m

/-- A byte string that does not begin with a tag. -/
def Untagged (b : Bytes) : Prop := ∀ hd t n, IsHead .tag hd n → b ≠ hd ++ t

theorem WrittenArray.untagged {k : Kind} {b : Bytes} {m : k.Body} (h : WrittenArray b m) :
    Untagged b := by
  rintro hd t n tag rfl
  obtain ⟨form, harray⟩ := h.begins
  obtain ⟨form', htag, -⟩ := Reader.takes_argument tag
  cases (harray [] 0).symm.trans (htag.append t [] 0)

/-- A structure is written as it was read exactly if that was the one way without a tag that
deterministic encoding allows, apart from the contents of byte strings. -/
theorem Written.encode_eq_iff {k : Kind} {b : Bytes} {m : k.Body} (h : Written b m) :
    encode m = b ↔ Untagged b ∧ Deterministic b := by
  cases h with
  | array h =>
    rw [h.toValue.deterministic_iff, encode_toValue]
    constructor
    · rintro rfl
      exact ⟨h.untagged, rfl⟩
    · intro hb
      exact hb.2.symm
  | tagged _ tag h =>
    constructor
    · intro heq
      exact absurd heq (h.written.untagged _ _ _ tag)
    · intro hb
      exact absurd rfl (hb.1 _ _ _ tag)

/-- The bytes that the signatures, the tag or the cipher of a message cover. -/
def authenticated : {k : Kind} → k.Body → Bytes → Option Bytes → List (Except Error Bytes)
  | .sign1, m, external, detached => [m.toBeSigned external detached]
  | .sign, m, external, detached => m.signatures.map fun s => m.toBeSigned s external detached
  | .mac0, m, external, detached => [m.toBeMaced external detached]
  | .mac, m, external, detached => [m.toBeMaced external detached]
  | .encrypt0, m, external, _ => [m.associatedData external]
  | .encrypt, m, external, _ => [m.associatedData external]
  | .signature, _, _, _ | .recipient, _, _, _ => []

/-- What becomes of a structure that is read from `b` and written again. -/
structure Rewritten (max : Nat) {k : Kind} (b : Bytes) (m : k.Body) : Prop where
  again : decodeWithin max k (encode m) = .ok m
  before : ∀ cs, Carries b cs ↔ cs = contents m
  after : ∀ cs, Carries (encode m) cs ↔ cs = contents m
  authenticated : ∀ m' : k.Body, decodeWithin max k (encode m) = .ok m' →
    ∀ external detached, authenticated m' external detached = authenticated m external detached
  identical : encode m = b ↔ Untagged b ∧ Deterministic b

/-- A structure that was read and is written again is read as before, and nothing that is
authenticated changes: every protected header, in the structure and in those within it, keeps the
contents that it had. The bytes are the same exactly if they had no tag in front, and all heads and
all maps outside the protected headers were in deterministic encoding. -/
theorem rewritten_of_decodeWithin (max : Nat) (k : Kind) (b : Bytes) (m : k.Body)
    (h : decodeWithin max k b = .ok m) : Rewritten max b m := by
  obtain ⟨hwritten, hdepth⟩ := decodeWithin_eq_ok.mp h
  have hagain : decodeWithin max k (encode m) = .ok m :=
    decodeWithin_eq_ok.mpr ⟨hwritten.written, hdepth⟩
  refine ⟨hagain, hwritten.carries_iff, hwritten.written.carries_iff, ?_, hwritten.encode_eq_iff⟩
  intro m' hm' external detached
  cases hagain.symm.trans hm'
  rfl

/-- A message with one signature whose protected header is not in deterministic encoding. -/
def padded : Sign1 where
  protectedHeader := ⟨LabelMap.empty.insert Header.algorithm (.int Algorithm.es256.id),
    [0xa1, 0x18, 0x01, 0x26]⟩
  unprotected := .empty
  payload := none
  signature := []

/-- How a protected header is written makes no difference, but a head of its byte string does. -/
theorem rewritten_of_decodeWithin_padded :
    (decodeWithin 0 .sign1 [0x84, 0x44, 0xa1, 0x18, 0x01, 0x26, 0xa0, 0xf6, 0x40] = .ok padded ∧
      Deterministic [0x84, 0x44, 0xa1, 0x18, 0x01, 0x26, 0xa0, 0xf6, 0x40]) ∧
    decodeWithin 0 .sign1 [0x84, 0x58, 0x04, 0xa1, 0x18, 0x01, 0x26, 0xa0, 0xf6, 0x40] =
      .ok padded ∧
    Carries [0x84, 0x58, 0x04, 0xa1, 0x18, 0x01, 0x26, 0xa0, 0xf6, 0x40]
      [[0xa1, 0x18, 0x01, 0x26]] ∧
    ¬(Untagged [0x84, 0x58, 0x04, 0xa1, 0x18, 0x01, 0x26, 0xa0, 0xf6, 0x40] ∧
      Deterministic [0x84, 0x58, 0x04, 0xa1, 0x18, 0x01, 0x26, 0xa0, 0xf6, 0x40]) := by
  have h := rewritten_of_decodeWithin 0 .sign1
    [0x84, 0x44, 0xa1, 0x18, 0x01, 0x26, 0xa0, 0xf6, 0x40] padded rfl
  have h' := rewritten_of_decodeWithin 0 .sign1
    [0x84, 0x58, 0x04, 0xa1, 0x18, 0x01, 0x26, 0xa0, 0xf6, 0x40] padded rfl
  refine ⟨⟨rfl, (h.identical.mp rfl).2⟩, rfl, (h'.before _).mpr rfl, mt h'.identical.mpr ?_⟩
  decide

end Message

end Cose
