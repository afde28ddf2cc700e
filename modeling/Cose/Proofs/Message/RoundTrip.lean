import Cose.Message
import Cose.Proofs.Message.Recipients

namespace Cose

open Cbor Reader

theorem takes_bytesOrNull {content : Option Bytes} (fits : (bytesOrNull content).length < 2 ^ 64)
    (field : String) : (bstrOrNil field).Takes (bytesOrNull content) content := by
  cases content with
  | none => exact takes_bstrOrNil_null field
  | some bs =>
    change (Cbor.bytes bs).length < 2 ^ 64 at fits
    have := length_le_length_bytes bs
    exact takes_bstrOrNil (bytes_isBytes (by omega)) field

theorem takes_bytes_encode {bs : Bytes} (fits : (Cbor.bytes bs).length < 2 ^ 64)
    (field : String) : (bstr field).Takes (Cbor.bytes bs) bs := by
  have := length_le_length_bytes bs
  exact takes_bstr (bytes_isBytes (by omega)) field

theorem takes_arrayOf_encode {n : Nat} (h : n < 2 ^ 64) (name : String) :
    (arrayOf name n).Takes (head .array n) () :=
  takes_arrayOf (head_isHead .array h) name

theorem Signature.encode_length_pos (s : Signature) : 0 < s.encode.length := by
  have := head_length_pos .array 3
  simp only [encode, List.length_append]
  omega

section

variable {P Q : Prop} [Decidable P] [Decidable Q] {e : DecodingError}

theorem Sign1.returns_read {m : Sign1} (fits : m.encode.length < 2 ^ 64)
    (headers : Headers.read.Returns m.toHeaders.encode
      (if P then .ok m.toHeaders else .error e)) :
    Sign1.read.Returns m.encode (if P then .ok m else .error e) := by
  simp only [encode, List.append_assoc, List.length_append] at fits ⊢
  refine (takes_arrayOf_encode (by decide) name).returns (headers.takes ?_)
  refine (takes_bytesOrNull (by omega) "payload").bind ?_
  exact (takes_bytes_encode (by omega) "signature").map _

theorem Mac0.returns_read {m : Mac0} (fits : m.encode.length < 2 ^ 64)
    (headers : Headers.read.Returns m.toHeaders.encode
      (if P then .ok m.toHeaders else .error e)) :
    Mac0.read.Returns m.encode (if P then .ok m else .error e) := by
  simp only [encode, List.append_assoc, List.length_append] at fits ⊢
  refine (takes_arrayOf_encode (by decide) name).returns (headers.takes ?_)
  refine (takes_bytesOrNull (by omega) "payload").bind ?_
  exact (takes_bytes_encode (by omega) "tag").map _

theorem Encrypt0.returns_read {m : Encrypt0} (fits : m.encode.length < 2 ^ 64)
    (headers : Headers.read.Returns m.toHeaders.encode
      (if P then .ok m.toHeaders else .error e)) :
    Encrypt0.read.Returns m.encode (if P then .ok m else .error e) := by
  simp only [encode, List.append_assoc, List.length_append] at fits ⊢
  refine (takes_arrayOf_encode (by decide) name).returns (headers.takes ?_)
  exact (takes_bytesOrNull (by omega) "ciphertext").map _

theorem Signature.returns_read {s : Signature} (fits : s.encode.length < 2 ^ 64)
    (headers : Headers.read.Returns s.toHeaders.encode
      (if P then .ok s.toHeaders else .error e)) :
    Signature.read.Returns s.encode (if P then .ok s else .error e) := by
  simp only [encode, List.append_assoc, List.length_append] at fits ⊢
  refine (takes_arrayOf_encode (by decide) name).returns (headers.takes ?_)
  exact (takes_bytes_encode (by omega) "signature").map _

theorem Sign.returns_read {m : Sign} {R : Signature → Prop} [DecidablePred R]
    (fits : m.encode.length < 2 ^ 64) (hne : m.signatures ≠ [])
    (headers : Headers.read.Returns m.toHeaders.encode
      (if P then .ok m.toHeaders else .error e))
    (signatures : ∀ s ∈ m.signatures, s.encode.length < 2 ^ 64 →
      Signature.read.Returns s.encode (if R s then .ok s else .error e)) :
    Sign.read.Returns m.encode
      (if P ∧ ∀ s ∈ m.signatures, R s then .ok m else .error e) := by
  simp only [encode, List.append_assoc, List.length_append] at fits ⊢
  have hn := length_le_length_flatMap fun s (_ : s ∈ m.signatures) => s.encode_length_pos
  refine (takes_arrayOf_encode (by decide) name).returns (headers.and ?_)
  refine (takes_bytesOrNull (by omega) "payload").returns ?_
  refine (returns_listOf hne (head_isHead .array (by omega)) (fun s hs => ?_) _ _).map_ite _
  have := length_le_of_mem_flatMap (f := Signature.encode) hs
  exact signatures s hs (by omega)

theorem Mac.returns_read {m : Mac} {max : Nat} (fits : m.encode.length < 2 ^ 64)
    (headers : Headers.read.Returns m.toHeaders.encode
      (if P then .ok m.toHeaders else .error e))
    (recipients : (Recipient.readList max).Returns (Recipient.encodeList m.recipients)
      (if Q then .ok m.recipients else .error e)) :
    (Mac.read max).Returns m.encode (if P ∧ Q then .ok m else .error e) := by
  simp only [encode, List.append_assoc, List.length_append] at fits ⊢
  refine (takes_arrayOf_encode (by decide) name).returns (headers.and ?_)
  refine (takes_bytesOrNull (by omega) "payload").returns ?_
  refine (takes_bytes_encode (by omega) "tag").returns ?_
  exact recipients.map_ite _

theorem Encrypt.returns_read {m : Encrypt} {max : Nat} (fits : m.encode.length < 2 ^ 64)
    (headers : Headers.read.Returns m.toHeaders.encode
      (if P then .ok m.toHeaders else .error e))
    (recipients : (Recipient.readList max).Returns (Recipient.encodeList m.recipients)
      (if Q then .ok m.recipients else .error e)) :
    (Encrypt.read max).Returns m.encode (if P ∧ Q then .ok m else .error e) := by
  simp only [encode, List.append_assoc, List.length_append] at fits ⊢
  refine (takes_arrayOf_encode (by decide) name).returns (headers.and ?_)
  refine (takes_bytesOrNull (by omega) "ciphertext").returns ?_
  exact recipients.map_ite _

end

theorem Recipient.returns_readList {rs : List Recipient} (hne : rs ≠ []) (hs : ∀ r ∈ rs, r.Sound)
    (fits : (encodeList rs).length < 2 ^ 64) (max : Nat) :
    (readList max).Returns (encodeList rs)
      (if depthOfList rs ≤ max then .ok rs else .error (.nestingTooDeep name max)) := by
  simp only [depthOfList_le]
  exact returns_list hne fits fun s h =>
    returns_readWithin (hs s h) ((length_lt_of_fits fits).2 s h) max max

theorem Mac.length_encodeList_lt {m : Mac} (fits : m.encode.length < 2 ^ 64) :
    (Recipient.encodeList m.recipients).length < 2 ^ 64 := by
  rw [encode, List.length_append] at fits
  omega

theorem Encrypt.length_encodeList_lt {m : Encrypt} (fits : m.encode.length < 2 ^ 64) :
    (Recipient.encodeList m.recipients).length < 2 ^ 64 := by
  rw [encode, List.length_append] at fits
  omega

namespace Message

/-- A structure that can be read back apart from the depth of its recipients: all headers in it can,
and it has the members that its list must have. -/
def Sound : {k : Kind} → k.Body → Prop
  | .sign1, m => m.toHeaders.Sound
  | .sign, m => m.toHeaders.Sound ∧ m.signatures ≠ [] ∧ ∀ s ∈ m.signatures, s.toHeaders.Sound
  | .signature, m => m.toHeaders.Sound
  | .mac0, m => m.toHeaders.Sound
  | .mac, m => m.toHeaders.Sound ∧ m.recipients ≠ [] ∧ ∀ r ∈ m.recipients, r.Sound
  | .encrypt0, m => m.toHeaders.Sound
  | .encrypt, m => m.toHeaders.Sound ∧ m.recipients ≠ [] ∧ ∀ r ∈ m.recipients, r.Sound
  | .recipient, m => Recipient.Sound m

/-- How many levels of recipients there are in a structure. -/
def recipientDepth : {k : Kind} → k.Body → Nat
  | .mac, m => Recipient.depthOfList m.recipients
  | .encrypt, m => Recipient.depthOfList m.recipients
  | .recipient, m => Recipient.depth m
  | .sign1, _ | .sign, _ | .signature, _ | .mac0, _ | .encrypt0, _ => 0

def headers : {k : Kind} → k.Body → Headers
  | .sign1, m => m.toHeaders
  | .sign, m => m.toHeaders
  | .signature, m => m.toHeaders
  | .mac0, m => m.toHeaders
  | .mac, m => m.toHeaders
  | .encrypt0, m => m.toHeaders
  | .encrypt, m => m.toHeaders
  | .recipient, m => m.toHeaders

theorem length_headers_le {k : Kind} (m : k.Body) :
    (headers m).encode.length ≤ (encode m).length := by
  cases k with
  | sign1 => simp only [headers, encode, Sign1.encode, List.length_append]; omega
  | sign => simp only [headers, encode, Sign.encode, List.length_append]; omega
  | signature => simp only [headers, encode, Signature.encode, List.length_append]; omega
  | mac0 => simp only [headers, encode, Mac0.encode, List.length_append]; omega
  | mac => simp only [headers, encode, Mac.encode, List.length_append]; omega
  | encrypt0 => simp only [headers, encode, Encrypt0.encode, List.length_append]; omega
  | encrypt => simp only [headers, encode, Encrypt.encode, List.length_append]; omega
  | recipient => simp only [headers, encode, Recipient.encode_eq, List.length_append]; omega

theorem length_headers_lt {k : Kind} {m : k.Body} (fits : (encode m).length < 2 ^ 64) :
    (headers m).encode.length < 2 ^ 64 := Nat.lt_of_le_of_lt (length_headers_le m) fits

theorem Sound.headers {k : Kind} {m : k.Body} (h : Sound m) : (headers m).Sound := by
  cases k with
  | sign1 | signature | mac0 | encrypt0 => exact h
  | sign | mac | encrypt => exact h.1
  | recipient =>
    cases h with
    | mk headers _ => exact headers

theorem returns_read {k : Kind} {m : k.Body} (hs : Sound m) (fits : (encode m).length < 2 ^ 64)
    (max : Nat) : (k.read max).Returns (encode m) (if recipientDepth m ≤ max then .ok m
      else .error (.nestingTooDeep Recipient.name max)) := by
  have own : Headers.read.Returns (headers m).encode (if True then .ok (headers m)
      else .error (.nestingTooDeep Recipient.name max)) :=
    Headers.takes_read_encode hs.headers (length_headers_lt fits)
  -- Where there are no recipients, nothing can nest too deep.
  have flat {r : Reader k.Body} {p : Prop} [Decidable p] (hp : p) (hz : recipientDepth m = 0)
      (hr : r.Returns (encode m) (if p then .ok m
        else .error (.nestingTooDeep Recipient.name max))) :
      r.Returns (encode m) (if recipientDepth m ≤ max then .ok m
        else .error (.nestingTooDeep Recipient.name max)) := by
    rw [hz, if_pos (Nat.zero_le max)]
    rwa [if_pos hp] at hr
  cases k with
  | sign1 => exact flat trivial rfl (Sign1.returns_read fits own)
  | sign =>
    refine flat ⟨trivial, fun _ _ => trivial⟩ rfl
      (Sign.returns_read (R := fun _ => True) fits hs.2.1 own fun s hm hfits => ?_)
    exact Signature.returns_read hfits
      (Headers.takes_read_encode (hs.2.2 s hm) (length_headers_lt (k := .signature) hfits))
  | signature => exact flat trivial rfl (Signature.returns_read fits own)
  | mac0 => exact flat trivial rfl (Mac0.returns_read fits own)
  | mac =>
    have hlist := Recipient.returns_readList hs.2.1 hs.2.2 (Mac.length_encodeList_lt fits) max
    have hr := Mac.returns_read fits own hlist
    simp only [true_and] at hr
    exact hr
  | encrypt0 => exact flat trivial rfl (Encrypt0.returns_read fits own)
  | encrypt =>
    have hlist := Recipient.returns_readList hs.2.1 hs.2.2 (Encrypt.length_encodeList_lt fits) max
    have hr := Encrypt.returns_read fits own hlist
    simp only [true_and] at hr
    exact hr
  | recipient => exact Recipient.returns_readWithin hs fits max max

theorem exists_encode_eq {k : Kind} (m : k.Body) :
    ∃ n tail, n < 2 ^ 64 ∧ encode m = head .array n ++ tail := by
  cases k with
  | sign1 => exact ⟨4, _, by decide, by rw [encode, Sign1.encode]; simp only [List.append_assoc]; rfl⟩
  | sign => exact ⟨4, _, by decide, by rw [encode, Sign.encode]; simp only [List.append_assoc]; rfl⟩
  | signature =>
    exact ⟨3, _, by decide, by rw [encode, Signature.encode]; simp only [List.append_assoc]; rfl⟩
  | mac0 => exact ⟨4, _, by decide, by rw [encode, Mac0.encode]; simp only [List.append_assoc]; rfl⟩
  | mac => exact ⟨5, _, by decide, by rw [encode, Mac.encode]; simp only [List.append_assoc]; rfl⟩
  | encrypt0 =>
    exact ⟨3, _, by decide, by rw [encode, Encrypt0.encode]; simp only [List.append_assoc]; rfl⟩
  | encrypt =>
    exact ⟨4, _, by decide, by rw [encode, Encrypt.encode]; simp only [List.append_assoc]; rfl⟩
  | recipient => exact ⟨_, _, by split <;> decide, Recipient.encode_eq m⟩

theorem Kind.tag?_lt {k : Kind} {tag : Nat} (own : k.tag? = some tag) : tag < 2 ^ 64 := by
  cases k <;> cases own <;> decide

theorem takes_readTag {k : Kind} {hd : Bytes} {tag : Nat} (own : k.tag? = some tag)
    (h : IsHead .tag hd tag) : (readTag k).Takes hd () := by
  obtain ⟨form, hb, ha⟩ := takes_argument h
  refine hb.takes ?_
  rw [← List.append_nil hd]
  refine ha.bind ?_
  simpa [own] using takes_pure ()

theorem readTag_eq {b : Bytes} {form : Argument} (h : Begins b (.item .array form)) (k : Kind)
    (rest : Bytes) (position : Nat) :
    readTag k ⟨b ++ rest, position⟩ = .ok ((), ⟨b ++ rest, position⟩) := by
  rw [readTag, bind_apply, h]
  rfl

theorem readTag_encode {k : Kind} (m : k.Body) (rest : Bytes) (position : Nat) :
    readTag k ⟨encode m ++ rest, position⟩ = .ok ((), ⟨encode m ++ rest, position⟩) := by
  obtain ⟨n, tail, hn, he⟩ := exists_encode_eq m
  obtain ⟨form, hb, -⟩ := takes_argument (head_isHead .array hn)
  rw [he, readTag_eq (hb.append tail)]

/-- In front of a structure no tag is needed, and its own tag is passed over. -/
theorem returns_readTag {k : Kind} {m : k.Body} {r : Reader k.Body}
    {x : Except DecodingError k.Body} (h : r.Returns (encode m) x) :
    (readTag k >>= fun _ => r).Returns (encode m) x ∧
      (readTag k >>= fun _ => r).Returns (encodeTagged m) x := by
  have untagged : (readTag k >>= fun _ => r).Returns (encode m) x := by
    refine h.congr fun rest position => ?_
    rw [bind_apply, readTag_encode]
  refine ⟨untagged, ?_⟩
  unfold encodeTagged
  split
  next tag own => exact (takes_readTag own (head_isHead .tag (Kind.tag?_lt own))).returns h
  next => exact untagged

theorem encode_ne_nil {k : Kind} (m : k.Body) : (encode m).isEmpty = false := by
  obtain ⟨n, tail, -, he⟩ := exists_encode_eq m
  have := head_length_pos .array n
  rw [he]
  cases hh : head .array n with
  | nil => simp [hh] at this
  | cons => rfl

theorem encodeTagged_ne_nil {k : Kind} (m : k.Body) : (encodeTagged m).isEmpty = false := by
  unfold encodeTagged
  split
  next tag _ =>
    have := head_length_pos .tag tag
    cases hh : head .tag tag with
    | nil => simp [hh] at this
    | cons => rfl
  next => exact encode_ne_nil m

theorem decodeWithin_eq {k : Kind} {bs : Bytes} {x : Except DecodingError k.Body} {max : Nat}
    (hne : bs.isEmpty = false) (h : (readTag k >>= fun _ => k.read max).Returns bs x) :
    decodeWithin max k bs = x := by
  rw [decodeWithin, hne]
  exact h.complete k.name

/-- What reading makes of the array of a structure is what decoding makes of it, tagged or not. -/
theorem decodeWithin_of_returns {k : Kind} {m : k.Body} {x : Except DecodingError k.Body}
    {max : Nat} (h : (k.read max).Returns (encode m) x) :
    decodeWithin max k (encode m) = x ∧ decodeWithin max k (encodeTagged m) = x := by
  have h := returns_readTag h
  exact ⟨decodeWithin_eq (encode_ne_nil m) h.1, decodeWithin_eq (encodeTagged_ne_nil m) h.2⟩

/-- A sound structure is read back from its encoding, tagged or not, if its recipients nest no
deeper than allowed, and is refused for their depth otherwise. Structures longer than a head can
announce are left out. -/
theorem decodeWithin_encode {k : Kind} (m : k.Body) (hs : Sound m)
    (fits : (encode m).length < 2 ^ 64) (max : Nat) :
    let outcome : Except DecodingError k.Body :=
      if recipientDepth m ≤ max then .ok m else .error (.nestingTooDeep "COSE_recipient" max)
    decodeWithin max k (encode m) = outcome ∧ decodeWithin max k (encodeTagged m) = outcome := by
  have h := returns_readTag (returns_read hs fits max)
  exact ⟨decodeWithin_eq (encode_ne_nil m) h.1, decodeWithin_eq (encodeTagged_ne_nil m) h.2⟩

/-- A message whose only recipient has a recipient of its own. -/
def relayed : Mac where
  protectedHeader := .ofMap (LabelMap.empty.insert Header.algorithm (.int Algorithm.hmac256.id))
  unprotected := .empty
  payload := none
  tag := [0xa5]
  recipients := [⟨⟨.empty, .empty⟩, [], [.direct [0x2a]]⟩]

theorem relayed_sound : Sound (k := .mac) relayed := by
  have none_deep : ∀ e ∈ LabelMap.empty.entries, e.2.depth ≤ Value.maxDepth := by
    intro e he
    cases he
  refine ⟨⟨rfl, none_deep⟩, List.cons_ne_nil _ _, ?_⟩
  intro r hr
  cases List.mem_singleton.mp hr
  refine .mk ⟨rfl, none_deep⟩ ?_
  intro s hs
  cases List.mem_singleton.mp hs
  exact Recipient.direct_sound [0x2a]

theorem decodeWithin_encode_relayed :
    (decodeWithin 2 .mac (encode (k := .mac) relayed) = .ok relayed ∧
      decodeWithin 2 .mac (encodeTagged (k := .mac) relayed) = .ok relayed) ∧
      decodeWithin 1 .mac (encode (k := .mac) relayed) =
        .error (.nestingTooDeep "COSE_recipient" 1) ∧
      decodeWithin 1 .mac (encodeTagged (k := .mac) relayed) =
        .error (.nestingTooDeep "COSE_recipient" 1) := by
  have fits : (encode (k := .mac) relayed).length < 2 ^ 64 := by decide
  exact ⟨decodeWithin_encode (k := .mac) relayed relayed_sound fits 2,
    decodeWithin_encode (k := .mac) relayed relayed_sound fits 1⟩

end Message

end Cose
