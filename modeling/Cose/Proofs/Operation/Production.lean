import Cose.Proofs.Key.RoundTrip
import Cose.Proofs.Operation.Retention

namespace Cose

namespace Message

/-- The structures that are produced: built from any fields, given one after the other, or made by an
operation, whatever the provider answers. The signatures and recipients that are given for them are
such as come about. -/
inductive Produced : {k : Kind} → k.Body → Prop
  | built {k : Kind} {steps : List (Draft.Step k)} {m : k.Body}
      (given : ∀ s ∈ steps, ∀ part ∈ s.given, PartObtained part)
      (h : (Draft.run {} steps).build = .ok m) : Produced m
  | sign1 {p : Provider} {key : SigningKey} {protectedMap unprotected : LabelMap} {payload : Bytes}
      {o : Options} {m : Sign1}
      (h : (Sign1.sign p key protectedMap unprotected payload o).outcome = .ok m) :
      Produced (k := .sign1) m
  | sign {p : Provider} {protectedMap unprotected : LabelMap} {payload : Bytes}
      {signers : List Signer} {o : Options} {m : Sign}
      (h : (Sign.sign p protectedMap unprotected payload signers o).outcome = .ok m) :
      Produced (k := .sign) m
  | mac0 {p : Provider} {key : MacKey} {protectedMap unprotected : LabelMap} {payload : Bytes}
      {o : Options} {m : Mac0}
      (h : (Mac0.create p key protectedMap unprotected payload o).outcome = .ok m) :
      Produced (k := .mac0) m
  | mac {p : Provider} {key : MacKey} {protectedMap unprotected : LabelMap} {payload : Bytes}
      {recipients : List Recipient} {o : Options} {m : Mac}
      (given : ∀ r ∈ recipients, r.Obtained)
      (h : (Mac.create p key protectedMap unprotected payload recipients o).outcome = .ok m) :
      Produced (k := .mac) m
  | encrypt0 {p : Provider} {key : EncryptionKey} {protectedMap unprotected : LabelMap}
      {plaintext : Bytes} {o : Options} {s : Sealed Encrypt0}
      (h : (Encrypt0.encrypt p key protectedMap unprotected plaintext o).outcome = .ok s) :
      Produced (k := .encrypt0) s.message
  | encrypt {p : Provider} {key : EncryptionKey} {protectedMap unprotected : LabelMap}
      {plaintext : Bytes} {recipients : List Recipient} {o : Options} {s : Sealed Encrypt}
      (given : ∀ r ∈ recipients, r.Obtained)
      (h : (Encrypt.encrypt p key protectedMap unprotected plaintext recipients o).outcome =
        .ok s) : Produced (k := .encrypt) s.message

theorem Drafted.assembled {encrypted : Bool} {protectedMap unprotected : LabelMap} {k : Kind}
    {given : List k.Part} {m : k.Body} (h : Drafted encrypted protectedMap unprotected given m)
    (hgiven : ∀ part ∈ given, PartObtained part) : Assembled Recipient.maxDepth m := by
  obtain ⟨d, hbuild, rfl, -⟩ := h
  exact Draft.assembled_of_build (fun part hp => genuine_of_partObtained (hgiven part hp)) hbuild

theorem Produced.assembled {k : Kind} {m : k.Body} (h : Produced m) :
    Assembled Recipient.maxDepth m := by
  cases h with
  | built given h =>
    refine Draft.assembled_of_build (fun part hp => ?_) h
    rcases Draft.mem_parts_run hp with hempty | ⟨s, hs, hgiven⟩
    · cases hempty
    · exact genuine_of_partObtained (given s hs part hgiven)
  | sign1 h =>
    exact (Sign1.drafted_of_sign (Session.eq_of_outcome h)).assembled fun e he => nomatch he
  | sign h =>
    -- The signatures are not given but made on the way, each of them built.
    obtain ⟨d, hbuild, -, -, hall⟩ := Sign.exists_draft_of_sign (Session.eq_of_outcome h)
    refine Draft.assembled_of_build (fun part hp => ?_) hbuild
    obtain ⟨s, -, drafted⟩ := exists_mem_of_forall₂ hall.flip hp
    obtain ⟨_, hmade, -⟩ := drafted
    exact genuine_of_partObtained (k := .sign) (Signature.Obtained.built hmade)
  | mac0 h =>
    exact (Mac0.drafted_of_create (Session.eq_of_outcome h)).assembled fun e he => nomatch he
  | mac given h => exact (Mac.drafted_of_create (Session.eq_of_outcome h)).assembled given
  | encrypt0 h =>
    exact (Encrypt0.drafted_of_encrypt (Session.eq_of_outcome h)).assembled fun e he => nomatch he
  | encrypt given h => exact (Encrypt.drafted_of_encrypt (Session.eq_of_outcome h)).assembled given

/-- A structure that is produced is read back, with its tag and without it, exactly if no value in a
header nests too deep, in the structure or in one within it; and so is a key, exactly if no value
under a label without a meaning does. What is longer than a head can announce is left out. -/
theorem decode_produced (k : Kind) (m : k.Body) (draft : Key.Draft) (key : Key) :
    (Produced m → (encode m).length < 2 ^ 64 →
      let outcome : Except DecodingError k.Body :=
        if ∀ h ∈ allHeaders m, h.Shallow then .ok m
        else .error (.nestingTooDeep "header value" 16)
      decode k (encode m) = outcome ∧ decode k (encodeTagged m) = outcome) ∧
    (draft.build = .ok key → key.encode.length < 2 ^ 64 →
      Key.decode key.encode = if key.extra.Shallow then .ok key
        else .error (.decoding (.nestingTooDeep "header value" 16))) := by
  constructor
  · intro produced fits
    exact produced.assembled.decodeWithin_eq fits
  · intro _ fits
    exact key.decode_encode fits

theorem produced_relayed : Produced (k := .mac) relayed := by
  let d : Draft .recipient :=
    { protectedSlot := .map .empty, token := some [], parts := [.direct [0x2a]] }
  have relay : PartObtained (k := .mac) ⟨⟨.empty, .empty⟩, [], [.direct [0x2a]]⟩ := by
    refine Recipient.Obtained.built (d := d) (fun r hr => ?_) rfl
    cases List.mem_singleton.mp hr
    exact .direct [0x2a]
  have given : ∀ s ∈ ([.protectedMap relayed.protectedHeader.map, .detach "payload" rfl,
      .token "tag" rfl [0xa5], .add ⟨⟨.empty, .empty⟩, [], [.direct [0x2a]]⟩] :
      List (Draft.Step .mac)), ∀ part ∈ s.given, PartObtained part := by
    simpa [Draft.Step.given] using relay
  exact .built given rfl

theorem decode_produced_relayed :
    (decode .mac (encode (k := .mac) relayed) = .ok relayed ∧
      decode .mac (encodeTagged (k := .mac) relayed) = .ok relayed) ∧
    Key.decode Key.privateOctet.encode = .ok Key.privateOctet := by
  let draft : Key.Draft := (Key.Draft.empty .okp).run [.usage .signing, .keyId [],
    .addOperation .sign, .curve .ed25519, .d (List.replicate 32 0x07)]
  have built : draft.build = .ok Key.privateOctet := rfl
  obtain ⟨structures, keys⟩ := decode_produced .mac relayed draft Key.privateOctet
  have hmac := structures produced_relayed (by decide)
  dsimp only at hmac
  rw [if_pos (by decide)] at hmac
  exact ⟨hmac, (keys built (by decide)).trans (if_pos (by decide))⟩

/-- An array in an array, and so on, for so many levels. -/
def nested (levels : Nat) : Value := (List.range levels).foldl (fun v _ => .array [v]) .null

/-- A value in a given map can nest deeper than is read, so that the message is not read back. -/
theorem built_not_decoded : ∃ m : Sign1,
    (Draft.run {} [.protectedMap .empty, .unprotected (.insert .empty (.text "a") (nested 16)),
      .embed "payload" rfl [0x05], .token "signature" rfl []] : Draft .sign1).build = .ok m ∧
    decode .sign1 (encode (k := .sign1) m) = .error (.nestingTooDeep "header value" 16) := by
  exact ⟨_, rfl, rfl⟩

end Message

end Cose
