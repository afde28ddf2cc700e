import Cose.Proofs.Operation.Encryption

namespace Cose

open Message

/-- The last of some calls encrypts, and the headers tell its nonce; if they are unusable they tell
none. -/
def Nonce.ToldUnless (unusable : Prop) [Decidable unusable] (key : Key) (calls : List Call)
    (h : Headers) : Prop :=
  ∃ front alg k iv aad content, calls = front ++ [.encrypt alg k iv aad content] ∧
    (front = [] ∨ front = [.random alg.ivLength]) ∧
    toDecrypt key alg h.protectedHeader.map h.unprotected none =
      if unusable then .error (.missingHeader "IV") else .ok iv

theorem Nonce.toDecrypt_none {key : Key} {alg : Algorithm} {protectedMap unprotected : LabelMap}
    {found : Option Bytes} (h : ofHeaders key alg protectedMap unprotected = .ok found) :
    toDecrypt key alg protectedMap unprotected none =
      found.elim (.error (.missingHeader "IV")) .ok := by
  rw [toDecrypt, h]
  cases found <;> rfl

/-- Below the headers that are written, the nonce is told. -/
theorem Encryption.toldUnless_of_create {p : Provider} {context : Aad.Context} {key : Key}
    {protectedMap unprotected : LabelMap} {plaintext : Bytes} {o : Options} {calls : List Call}
    {out : Output}
    (h : create p context key protectedMap unprotected plaintext o = ⟨calls, .ok out⟩) :
    ∃ recorded, out.headerBytes = (ProtectedHeader.ofMap recorded).bytes ∧
      Nonce.ToldUnless (Nonce.Unusable protectedMap unprotected) key calls
        ⟨.ofMap recorded, out.unprotected⟩ := by
  obtain ⟨alg, halg, h⟩ := Session.bind_ofExcept_eq_ok h
  obtain ⟨content, hcontent, h⟩ := Session.bind_mapError_eq_ok h
  obtain ⟨front, ⟨iv, written⟩, rest, hnonce, hrest, rfl⟩ := Session.bind_eq_ok h
  obtain ⟨aad, haad, hrest⟩ := Session.bind_mapError_eq_ok hrest
  obtain ⟨k, hk, hrest⟩ := Session.bind_mapError_eq_ok hrest
  obtain ⟨last, ciphertext, none', hask, hout, rfl⟩ := Session.bind_eq_ok hrest
  obtain ⟨-, rfl⟩ := Session.ask_eq_ok hask
  cases hout
  obtain ⟨hfront, -, hheaders, -⟩ := Nonce.of_toEncrypt hnonce
  refine ⟨_, rfl, front, alg, k, iv, aad, content, rfl, hfront, ?_⟩
  rw [ProtectedHeader.map_ofMap, Nonce.toDecrypt_none hheaders]
  by_cases hn : Nonce.Unusable protectedMap unprotected
  · rw [if_pos hn, if_pos ((Nonce.unusable_record alg protectedMap unprotected).mpr hn)]
    rfl
  · rw [if_neg hn, if_neg (mt (Nonce.unusable_record alg protectedMap unprotected).mp hn)]
    rfl

/-- A message that is encrypted tells its nonce, unless the given headers have an entry for a nonce
or for a part of one but no byte string there: then the nonce is the caller's or drawn, it is not
recorded, and the message alone cannot be decrypted. Headers longer than a head can announce are left
out. -/
theorem nonce_told_of_encrypt (p : Provider) (key : EncryptionKey)
    (protectedMap unprotected : LabelMap) (plaintext : Bytes) (o : Options) :
    (∀ (calls : List Call) (s : Sealed Encrypt0),
      Encrypt0.encrypt p key protectedMap unprotected plaintext o = ⟨calls, .ok s⟩ →
      s.message.toHeaders.encode.length < 2 ^ 64 →
      Nonce.ToldUnless (Nonce.Unusable protectedMap unprotected) key.key calls
        s.message.toHeaders) ∧
    (∀ (recipients : List Recipient) (calls : List Call) (s : Sealed Encrypt),
      Encrypt.encrypt p key protectedMap unprotected plaintext recipients o = ⟨calls, .ok s⟩ →
      s.message.toHeaders.encode.length < 2 ^ 64 →
      Nonce.ToldUnless (Nonce.Unusable protectedMap unprotected) key.key calls
        s.message.toHeaders) := by
  constructor
  · intro calls s h fits
    obtain ⟨front, out, rest, hcreate, hrest, rfl⟩ := Session.bind_eq_ok h
    obtain ⟨m, hbuild, hrest⟩ := Session.bind_ofExcept_eq_ok hrest
    cases hrest
    obtain ⟨recorded, hheader, htold⟩ := Encryption.toldUnless_of_create hcreate
    obtain ⟨-, heq⟩ := Draft.headers_eq_ok (congrArg ProtectedSlot.bytes hheader)
      (Draft.build_encrypt0 hbuild).1
    rw [List.append_nil]
    exact (heq fits) ▸ htold
  · intro recipients calls s h fits
    obtain ⟨⟨⟩, -, h⟩ := Session.bind_mapError_eq_ok h
    obtain ⟨front, out, rest, hcreate, hrest, rfl⟩ := Session.bind_eq_ok h
    obtain ⟨m, hbuild, hrest⟩ := Session.bind_ofExcept_eq_ok hrest
    cases hrest
    obtain ⟨recorded, hheader, htold⟩ := Encryption.toldUnless_of_create hcreate
    obtain ⟨-, heq⟩ := Draft.headers_eq_ok (congrArg ProtectedSlot.bytes hheader)
      (Draft.build_encrypt hbuild).1
    rw [List.append_nil]
    exact (heq fits) ▸ htold

theorem nonce_told_of_encrypt_prepending :
    (∃ calls, ∃ s : Sealed Encrypt0, ∃ unprotected : LabelMap,
      unprotected = LabelMap.empty.insert Header.partialIv (.bytes [0x02]) ∧
      Encrypt0.encrypt .prepending .withBase .empty unprotected [0x05] {} = ⟨calls, .ok s⟩ ∧
      s.message.toHeaders.encode.length < 2 ^ 64 ∧ ¬Nonce.Unusable .empty unprotected ∧
      Nonce.ToldUnless (Nonce.Unusable .empty unprotected) EncryptionKey.withBase.key calls
        s.message.toHeaders) ∧
    ∃ calls, ∃ s : Sealed Encrypt, ∃ unprotected : LabelMap,
      unprotected = LabelMap.empty.insert Header.partialIv (.int 2) ∧
      Encrypt.encrypt .prepending .withBase .empty unprotected [0x05] [.direct [0x2a]] {} =
        ⟨calls, .ok s⟩ ∧
      s.message.toHeaders.encode.length < 2 ^ 64 ∧ Nonce.Unusable .empty unprotected ∧
      Nonce.ToldUnless (Nonce.Unusable .empty unprotected) EncryptionKey.withBase.key calls
        s.message.toHeaders := by
  constructor
  · have told := (nonce_told_of_encrypt .prepending .withBase .empty
      (LabelMap.empty.insert Header.partialIv (.bytes [0x02])) [0x05] {}).1 _ _ rfl
      (by decide)
    exact ⟨_, _, _, rfl, rfl, by decide, by decide +kernel, told⟩
  · have told := (nonce_told_of_encrypt .prepending .withBase .empty
      (LabelMap.empty.insert Header.partialIv (.int 2)) [0x05] {}).2 [.direct [0x2a]] _ _ rfl
      (by decide)
    exact ⟨_, _, _, rfl, rfl, by decide, by decide +kernel, told⟩

/-- A part of a nonce that is given as an integer keeps the drawn nonce from being recorded, so that
the message does not tell it. -/
theorem nonce_lost_of_encrypt : ∃ k iv aad content, ∃ s : Sealed Encrypt0,
    Encrypt0.encrypt .prepending .withBase .empty
      (LabelMap.empty.insert Header.partialIv (.int 2)) [0x05] {} =
        ⟨[.random 12, .encrypt .a128Gcm k iv aad content], .ok s⟩ ∧
    Nonce.toDecrypt EncryptionKey.withBase.key .a128Gcm s.message.protectedHeader.map
      s.message.unprotected none = .error (.missingHeader "IV") :=
  ⟨_, _, _, _, _, rfl, rfl⟩

end Cose
