import Cose.Operation.Encryption
import Cose.Proofs.Message.Arrival
import Cose.Proofs.Operation.Nonce

namespace Cose

open Message Selection

/-- A provider that opens what it has sealed, and never seals anything as nothing. -/
def Provider.Opens (p : Provider) : Prop :=
  ∀ alg k iv aad plaintext ciphertext, p.reply (.encrypt alg k iv aad plaintext) = .ok ciphertext →
    ciphertext ≠ [] ∧ p.reply (.decrypt alg k iv aad ciphertext) = .ok plaintext

/-- The content that is given is the embedded one, or the detached one if that is empty. -/
theorem Content.eq_some_of_resolve {embedded content : Bytes} {detached : Option Bytes}
    (h : Content.resolve (some embedded) detached = .ok content) :
    (if embedded.isEmpty then detached else some embedded) = some content := by
  cases embedded with
  | nil =>
    cases detached with
    | none => cases h
    | some bs =>
      cases bs with
      | nil => cases h
      | cons =>
        cases h
        rfl
  | cons =>
    cases detached with
    | none =>
      cases h
      rfl
    | some bs =>
      cases bs with
      | nil =>
        cases h
        rfl
      | cons => cases h

namespace Encryption

/-- A ciphertext is found where it was put, in the message or beside it. -/
theorem resolve_slot {plaintext ciphertext : Bytes} {embedded : Option Bytes}
    (hne : ciphertext ≠ [])
    (h : (slot plaintext ciphertext).1.resolve "ciphertext" = .ok embedded) :
    Content.resolve embedded (slot plaintext ciphertext).2 = .ok ciphertext := by
  cases ciphertext with
  | nil => exact absurd rfl hne
  | cons c cs =>
    cases plaintext with
    | nil =>
      cases h
      rfl
    | cons =>
      cases h
      rfl

/-- What is decrypted below the headers that were written comes out as the content that went in. A
key for encryption is never restricted to one of its operations, so only a missing name of the
algorithm can keep it from doing so. -/
theorem undo_of_create {p : Provider} (hopens : p.Opens) {context : Aad.Context}
    {key : EncryptionKey} {protectedMap unprotected : LabelMap} (hp : Nonce.Typed protectedMap)
    (hu : Nonce.Typed unprotected) {plaintext : Bytes} {o : Options} {calls : List Call}
    {out : Output}
    (h : create p context key.key protectedMap unprotected plaintext o = ⟨calls, .ok out⟩) :
    ∃ content recorded, (if plaintext.isEmpty then o.detached else some plaintext) = some content ∧
      out.headerBytes = (ProtectedHeader.ofMap recorded).bytes ∧ out.ciphertext ≠ [] ∧
      ∀ {headers : Headers} {embedded detached iv : Option Bytes} {given : Option Algorithm},
        headers = ⟨.ofMap recorded, out.unprotected⟩ →
        Content.resolve embedded detached = .ok out.ciphertext →
        given = o.algorithm ∨ given = none → iv = o.iv ∨ iv = none →
        (undo p key.key headers embedded
          (liftM (Aad.encryption context headers.protectedHeader.bytes o.externalAad).encode)
          { o with algorithm := given, iv := iv, detached := detached }).outcome =
          if Unnamed given headers.protectedHeader.map key.key then .error (.missingHeader "alg")
          else .ok content := by
  obtain ⟨alg, halg, h⟩ := Session.bind_ofExcept_eq_ok h
  obtain ⟨content, hcontent, h⟩ := Session.bind_mapError_eq_ok h
  obtain ⟨front, ⟨iv, written⟩, rest, hnonce, hrest, rfl⟩ := Session.bind_eq_ok h
  obtain ⟨aad, haad, hrest⟩ := Session.bind_mapError_eq_ok hrest
  obtain ⟨k, hk, hrest⟩ := Session.bind_mapError_eq_ok hrest
  obtain ⟨last, ciphertext, none', hask, hout, rfl⟩ := Session.bind_eq_ok hrest
  obtain ⟨hreply, rfl⟩ := Session.ask_eq_ok hask
  cases hout
  obtain ⟨hne, hopen⟩ := hopens alg k iv aad content ciphertext hreply
  obtain ⟨hexplicit, hheaders, halgorithm⟩ :=
    Nonce.toEncrypt_eq_ok (Nonce.typed_record hp alg unprotected) hu hnonce
  refine ⟨content, _, Content.eq_some_of_resolve hcontent, rfl, hne, ?_⟩
  intro headers embedded detached iv' given hh hresolve hg hiv
  subst hh
  have hpermits := key.permits rfl Purpose.encryption.check (by decide)
  have hdecrypt := Nonce.toDecrypt_eq hexplicit hiv hheaders
  have hk : Key.required "k" key.key.material.k? = .ok k := hk
  have haad : (Aad.encryption context
      (ProtectedHeader.ofMap (record alg protectedMap unprotected)).bytes o.externalAad).encode =
        .ok aad := haad
  refine (congrArg Session.outcome
    ((chosen_of_toProduce halg).bind_toCheck hg rfl halgorithm _)).trans ?_
  rw [if_neg hpermits]
  split
  next => rfl
  next =>
    dsimp only at hresolve ⊢
    rw [ProtectedHeader.map_ofMap, hresolve, hdecrypt, haad, hk]
    show Except.mapError Error.crypto (p.reply (.decrypt alg k iv aad ciphertext)) = .ok content
    rw [hopen]
    rfl

end Encryption

/-- What was encrypted comes back when the message is decrypted, as it was made or as it is read from
its encoding, with the algorithm and the nonce given again or left out. The detached ciphertext, if
there is one, is given as detached content. Messages longer than a head can announce are left out. -/
theorem decrypt_encrypt {p : Provider} (hopens : p.Opens) (key : EncryptionKey)
    {protectedMap unprotected : LabelMap} (hp : Nonce.Typed protectedMap)
    (hu : Nonce.Typed unprotected) (plaintext : Bytes) (o : Options) :
    (∀ s : Sealed Encrypt0,
      (Encrypt0.encrypt p key protectedMap unprotected plaintext o).outcome = .ok s →
      s.message.encode.length < 2 ^ 64 →
      ∃ content, (if plaintext.isEmpty then o.detached else some plaintext) = some content ∧
        ∀ arrived given iv, Received (k := .encrypt0) s.message arrived →
          given = o.algorithm ∨ given = none → iv = o.iv ∨ iv = none →
          (Encrypt0.decrypt p key arrived
            { o with algorithm := given, iv := iv, detached := s.detached }).outcome =
            if Unnamed given s.message.protectedHeader.map key.key then .error (.missingHeader "alg")
            else .ok content) ∧
    (∀ (recipients : List Recipient) (s : Sealed Encrypt),
      (Encrypt.encrypt p key protectedMap unprotected plaintext recipients o).outcome = .ok s →
      s.message.encode.length < 2 ^ 64 →
      ∃ content, (if plaintext.isEmpty then o.detached else some plaintext) = some content ∧
        ∀ arrived given iv, Received (k := .encrypt) s.message arrived →
          given = o.algorithm ∨ given = none → iv = o.iv ∨ iv = none →
          (Encrypt.decrypt p key arrived
            { o with algorithm := given, iv := iv, detached := s.detached }).outcome =
            if Unnamed given s.message.protectedHeader.map key.key then .error (.missingHeader "alg")
            else .ok content) := by
  constructor
  · intro s h fits
    obtain ⟨front, out, rest, hcreate, h, -⟩ := Session.bind_eq_ok (Session.eq_of_outcome h)
    obtain ⟨(m : Encrypt0), hbuild, h⟩ := Session.bind_ofExcept_eq_ok h
    cases h
    change m.encode.length < 2 ^ 64 at fits
    obtain ⟨content, recorded, hcontent, hheader, hne, hundo⟩ :=
      Encryption.undo_of_create hopens hp hu hcreate
    obtain ⟨hheaders, hslot⟩ := Draft.build_encrypt0 hbuild
    refine ⟨content, hcontent, ?_⟩
    intro arrived given iv hr hg hiv
    obtain ⟨harrived, heq⟩ := Received.arrival (k := .encrypt0) (P := (· = m)) hr
      (congrArg ProtectedSlot.bytes hheader) hheaders fits rfl
      (fun hf => Encrypt0.gives_read hf fits)
    subst harrived
    exact hundo heq (Encryption.resolve_slot hne hslot) hg hiv
  · intro recipients s h fits
    obtain ⟨⟨⟩, -, h⟩ := Session.bind_mapError_eq_ok (Session.eq_of_outcome h)
    obtain ⟨front, out, rest, hcreate, h, -⟩ := Session.bind_eq_ok h
    obtain ⟨(m : Encrypt), hbuild, h⟩ := Session.bind_ofExcept_eq_ok h
    cases h
    change m.encode.length < 2 ^ 64 at fits
    obtain ⟨content, recorded, hcontent, hheader, hne, hundo⟩ :=
      Encryption.undo_of_create hopens hp hu hcreate
    obtain ⟨hheaders, hslot, -⟩ := Draft.build_encrypt hbuild
    refine ⟨content, hcontent, ?_⟩
    intro arrived given iv hr hg hiv
    obtain ⟨⟨rs, rfl⟩, heq⟩ := Received.arrival (k := .encrypt)
      (P := fun n => ∃ rs, n = { m with recipients := rs }) hr
      (congrArg ProtectedSlot.bytes hheader) hheaders fits ⟨m.recipients, rfl⟩
      (fun hf => Encrypt.gives_read hf fits _)
    exact hundo heq (Encryption.resolve_slot hne hslot) hg hiv

/-- A provider that seals by putting a byte in front. -/
def Provider.prepending : Provider where
  form := .fixed
  reply
    | .encrypt _ _ _ _ plaintext => .ok (0x00 :: plaintext)
    | .decrypt _ _ _ _ ciphertext => .ok ciphertext.tail
    | .random length => .ok (List.replicate length 0x09)
    | _ => .error (.provider "no answer")

theorem Provider.prepending_opens : Provider.prepending.Opens := by
  intro alg k iv aad plaintext ciphertext h
  cases h
  exact ⟨List.cons_ne_nil _ _, rfl⟩

/-- A key with a base for nonces that is restricted to one algorithm. -/
def EncryptionKey.withBase : EncryptionKey where
  key :=
    { keyId := none, algorithm := some Algorithm.a128Gcm.id, operations := [],
      baseIv := some (List.replicate 12 0x01), material := .symmetric (List.replicate 16 0x07),
      extra := .empty, sound := rfl, unreserved := fun _ h => nomatch h }
  fits := rfl

theorem decrypt_encrypt_prepending :
    (∃ s : Sealed Encrypt0,
      (Encrypt0.encrypt .prepending .withBase .empty
        (LabelMap.empty.insert Header.partialIv (.bytes [0x02])) [] { detached := some [0x05] }).outcome
        = .ok s ∧
      (Encrypt0.decrypt .prepending .withBase s.message { detached := s.detached }).outcome =
        .ok [0x05]) ∧
    ∃ s : Sealed Encrypt,
      (Encrypt.encrypt .prepending .withBase .empty
        (LabelMap.empty.insert Header.partialIv (.bytes [0x02])) [] [.direct [0x2a]]
        { detached := some [0x05] }).outcome = .ok s ∧
      (Encrypt.decrypt .prepending .withBase s.message { detached := s.detached }).outcome =
        .ok [0x05] := by
  have hu : Nonce.Typed (LabelMap.empty.insert Header.partialIv (.bytes [0x02])) := by
    intro label _ v hv
    rw [LabelMap.get?_insert] at hv
    split at hv
    next =>
      cases hv
      rfl
    next => cases hv
  have hp : Nonce.Typed .empty := fun label _ v hv => nomatch hv
  have h := decrypt_encrypt Provider.prepending_opens .withBase hp hu [] { detached := some [0x05] }
  obtain ⟨content, hcontent, hdecrypt⟩ := h.1 _ rfl (by decide +kernel)
  obtain ⟨content', hcontent', hdecrypt'⟩ := h.2 [.direct [0x2a]] _ rfl (by decide +kernel)
  cases hcontent
  cases hcontent'
  refine ⟨⟨_, rfl, ?_⟩, _, rfl, ?_⟩
  · exact (hdecrypt _ none none (.inl rfl) (.inl rfl) (.inl rfl)).trans (if_neg (by decide))
  · exact (hdecrypt' _ none none (.inl rfl) (.inl rfl) (.inl rfl)).trans (if_neg (by decide))

end Cose
