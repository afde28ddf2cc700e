import Cose.Operation.Tagging
import Cose.Proofs.Message.Production
import Cose.Proofs.Operation.NonceRecovery
import Cose.Proofs.Operation.Verification

namespace Cose

open Message

/-- Neither header names an algorithm by an integer, although one of them has an entry for it. -/
def Selection.Overlooked (protectedMap unprotected : LabelMap) : Prop :=
  protectedMap.algorithm? = none ∧ unprotected.algorithm? = none ∧
    (protectedMap.contains Header.algorithm = true ∨ unprotected.contains Header.algorithm = true)

instance (protectedMap unprotected : LabelMap) :
    Decidable (Selection.Overlooked protectedMap unprotected) :=
  inferInstanceAs (Decidable (_ ∧ _ ∧ _))

/-- The unprotected header as it is written: of something encrypted it gets the nonce, unless there
was an entry for one or for a part of one. -/
def Nonce.record (encrypted : Bool) (iv : Bytes) (protectedMap unprotected : LabelMap) : LabelMap :=
  if encrypted && !isRecorded protectedMap unprotected then
    unprotected.insert Header.iv (.bytes iv)
  else unprotected

namespace Headers

/-- The given entries are all there. The algorithm is added to the protected header if there was no
entry for it. If the headers belong to something encrypted, a nonce is added to the unprotected one
if there was no entry for one or for a part of one. Nothing else is added. -/
structure Retains (encrypted : Bool) (protectedMap unprotected : LabelMap) (h : Headers) :
    Prop where
  protectedKept : ∀ l v, protectedMap.get? l = some v → h.protectedHeader.map.get? l = some v
  unprotectedKept : ∀ l v, unprotected.get? l = some v → h.unprotected.get? l = some v
  protectedAdded : ∀ l, h.protectedHeader.map.contains l = true ↔
    protectedMap.contains l = true ∨ l = Header.algorithm ∧
      protectedMap.contains Header.algorithm = false ∧
      unprotected.contains Header.algorithm = false
  unprotectedAdded : ∀ l, h.unprotected.contains l = true ↔
    unprotected.contains l = true ∨ encrypted = true ∧ l = Header.iv ∧
      Nonce.isRecorded protectedMap unprotected = false

/-- Headers as they are written for given ones. -/
structure Generated (encrypted : Bool) (protectedMap unprotected : LabelMap) (h : Headers) :
    Prop where
  recorded : ∃ alg, h.protectedHeader.map = Selection.record alg protectedMap unprotected
  nonced : ∃ iv, h.unprotected = Nonce.record encrypted iv protectedMap unprotected

end Headers

namespace LabelMap

theorem algorithm?_eq_none {m : LabelMap} (h : m.contains Header.algorithm = false) :
    m.algorithm? = none := by
  rw [algorithm?, int?, get?_eq_none h]
  rfl

theorem ne_int_of_algorithm? {m : LabelMap} (h : m.algorithm? = none) {v : Value}
    (hv : m.get? Header.algorithm = some v) (i : Int64) : v ≠ .int i := by
  rintro rfl
  rw [algorithm?, int?, hv] at h
  cases h

end LabelMap

namespace Selection

variable {protectedMap unprotected : LabelMap}

theorem record_of_named (alg : Algorithm)
    (h : ¬(protectedMap.algorithm? = none ∧ unprotected.algorithm? = none)) :
    record alg protectedMap unprotected = protectedMap := by
  refine if_neg ?_
  simpa using h

theorem record_of_unnamed (alg : Algorithm) (hp : protectedMap.algorithm? = none)
    (hu : unprotected.algorithm? = none) : record alg protectedMap unprotected =
      protectedMap.insert Header.algorithm (.int alg.id) := by
  refine if_pos ?_
  rw [hp, hu]
  rfl

/-- Where the algorithm is added without an entry for it being overlooked, there is no such entry. -/
theorem not_contains_of_not_overlooked (h : ¬Overlooked protectedMap unprotected)
    (hp : protectedMap.algorithm? = none) (hu : unprotected.algorithm? = none) :
    protectedMap.contains Header.algorithm = false ∧
      unprotected.contains Header.algorithm = false := by
  have hn : ¬(protectedMap.contains Header.algorithm = true ∨
      unprotected.contains Header.algorithm = true) := fun hc => h ⟨hp, hu, hc⟩
  simpa using hn

theorem get?_record_of_not_overlooked (h : ¬Overlooked protectedMap unprotected) (alg : Algorithm)
    {l : Label} {v : Value} (hv : protectedMap.get? l = some v) :
    (record alg protectedMap unprotected).get? l = some v := by
  by_cases hn : protectedMap.algorithm? = none ∧ unprotected.algorithm? = none
  · obtain ⟨hp, hu⟩ := hn
    obtain ⟨hnot, -⟩ := not_contains_of_not_overlooked h hp hu
    have hne : l ≠ Header.algorithm := by
      rintro rfl
      rw [LabelMap.contains_of_get? hv] at hnot
      cases hnot
    rw [record_of_unnamed alg hp hu, LabelMap.get?_insert_of_ne hne]
    exact hv
  · rw [record_of_named alg hn]
    exact hv

theorem contains_record_of_not_overlooked (h : ¬Overlooked protectedMap unprotected)
    (alg : Algorithm) (l : Label) : (record alg protectedMap unprotected).contains l = true ↔
      protectedMap.contains l = true ∨ l = Header.algorithm ∧
        protectedMap.contains Header.algorithm = false ∧
        unprotected.contains Header.algorithm = false := by
  by_cases hn : protectedMap.algorithm? = none ∧ unprotected.algorithm? = none
  · obtain ⟨hp, hu⟩ := hn
    have hnot := not_contains_of_not_overlooked h hp hu
    rw [record_of_unnamed alg hp hu, LabelMap.contains_insert, or_comm]
    simp [hnot]
  · rw [record_of_named alg hn]
    have hnot : ¬(protectedMap.contains Header.algorithm = false ∧
        unprotected.contains Header.algorithm = false) := by
      intro hform
      exact hn ⟨LabelMap.algorithm?_eq_none hform.1, LabelMap.algorithm?_eq_none hform.2⟩
    simp [hnot]

end Selection

namespace Headers.Generated

variable {encrypted : Bool} {protectedMap unprotected : LabelMap} {h : Headers}

theorem unprotectedKept (hg : Generated encrypted protectedMap unprotected h) {l : Label}
    {v : Value} (hv : unprotected.get? l = some v) : h.unprotected.get? l = some v := by
  obtain ⟨iv, hiv⟩ := hg.nonced
  rw [hiv, Nonce.record]
  split
  next hform =>
    have hnone : Nonce.isRecorded protectedMap unprotected = false := by simp_all
    obtain ⟨-, hnot⟩ := Nonce.not_contains_of_not_isRecorded hnone Header.iv (by decide)
    have hne : l ≠ Header.iv := by
      rintro rfl
      rw [LabelMap.contains_of_get? hv] at hnot
      cases hnot
    rw [LabelMap.get?_insert_of_ne hne]
    exact hv
  next => exact hv

theorem unprotectedAdded (hg : Generated encrypted protectedMap unprotected h) (l : Label) :
    h.unprotected.contains l = true ↔ unprotected.contains l = true ∨ encrypted = true ∧
      l = Header.iv ∧ Nonce.isRecorded protectedMap unprotected = false := by
  obtain ⟨iv, hiv⟩ := hg.nonced
  rw [hiv, Nonce.record]
  split
  next hform =>
    have hadded : encrypted = true ∧ Nonce.isRecorded protectedMap unprotected = false := by
      simpa using hform
    rw [LabelMap.contains_insert, or_comm]
    simp [hadded]
  next hform =>
    have hnot : ¬(encrypted = true ∧ Nonce.isRecorded protectedMap unprotected = false) := by
      simpa using hform
    constructor
    · exact .inl
    · intro hc
      rcases hc with hc | ⟨hencrypted, -, hnone⟩
      · exact hc
      · exact absurd ⟨hencrypted, hnone⟩ hnot

/-- Given headers are retained, unless an entry for the algorithm is overlooked. -/
theorem retains_iff (hg : Generated encrypted protectedMap unprotected h) :
    Retains encrypted protectedMap unprotected h ↔
      ¬Selection.Overlooked protectedMap unprotected := by
  obtain ⟨alg, hmap⟩ := hg.recorded
  constructor
  · intro retains hover
    obtain ⟨hp, hu, hcontains⟩ := hover
    have hrecorded := Selection.record_of_unnamed alg hp hu
    have hadded : h.protectedHeader.map.get? Header.algorithm = some (.int alg.id) := by
      rw [hmap, hrecorded, LabelMap.get?_insert_self]
    have hcontained : protectedMap.contains Header.algorithm = true := by
      rcases hcontains with hc | hc
      · exact hc
      · have hall := (retains.protectedAdded _).mp (LabelMap.contains_of_get? hadded)
        rcases hall with hc' | ⟨-, -, hnot⟩
        · exact hc'
        · rw [hc] at hnot
          cases hnot
    obtain ⟨v, hv⟩ := Option.isSome_iff_exists.mp hcontained
    have hkept := retains.protectedKept _ v hv
    rw [hadded] at hkept
    exact LabelMap.ne_int_of_algorithm? hp hv alg.id (Option.some.inj hkept).symm
  · intro hnot
    refine ⟨?_, fun l v => hg.unprotectedKept, ?_, hg.unprotectedAdded⟩
    · intro l v hv
      rw [hmap]
      exact Selection.get?_record_of_not_overlooked hnot alg hv
    · intro l
      rw [hmap]
      exact Selection.contains_record_of_not_overlooked hnot alg l

end Headers.Generated

section

variable {p : Provider} {protectedMap unprotected : LabelMap} {o : Options} {calls : List Call}

/-- The structure is built from a draft with given members in its list, and with the headers that are
to be written. -/
def Message.Drafted (encrypted : Bool) (protectedMap unprotected : LabelMap) {k : Kind}
    (given : List k.Part) (m : k.Body) : Prop :=
  ∃ d : Draft k, d.build = .ok m ∧ d.parts = given ∧
    (∃ alg, d.protectedSlot = .bytes
      (ProtectedHeader.ofMap (Selection.record alg protectedMap unprotected)).bytes) ∧
    ∃ iv, d.unprotected = Nonce.record encrypted iv protectedMap unprotected

theorem Message.Drafted.generated {k : Kind} {given : List k.Part} {m : k.Body} {encrypted : Bool}
    (h : Drafted encrypted protectedMap unprotected given m)
    (fits : (headers m).encode.length < 2 ^ 64) :
    (headers m).Generated encrypted protectedMap unprotected := by
  obtain ⟨d, hbuild, -, ⟨alg, hslot⟩, hunprotected⟩ := h
  obtain ⟨-, heq⟩ := Draft.headers_eq_ok hslot (Draft.of_build hbuild).1
  rw [heq fits]
  exact ⟨⟨alg, ProtectedHeader.map_ofMap _⟩, hunprotected⟩

theorem Sign1.drafted_of_sign {key : SigningKey} {payload : Bytes} {m : Sign1}
    (h : Sign1.sign p key protectedMap unprotected payload o = ⟨calls, .ok m⟩) :
    Drafted (k := .sign1) false protectedMap unprotected [] m := by
  obtain ⟨alg, -, h⟩ := Session.bind_ofExcept_eq_ok h
  obtain ⟨content, -, h⟩ := Session.bind_ofExcept_eq_ok h
  obtain ⟨data, -, h⟩ := Session.bind_ofExcept_eq_ok h
  obtain ⟨front, carried, rest, -, hrest, -⟩ := Session.bind_eq_ok h
  obtain ⟨hbuild, -⟩ := Session.ofExcept_eq_ok hrest
  exact ⟨_, hbuild, rfl, ⟨alg, rfl⟩, [], rfl⟩

theorem Signer.drafted_of_sign {s : Signer} {body content : Bytes} {made : Signature}
    (h : s.sign p body content o = ⟨calls, .ok made⟩) :
    Drafted (k := .signature) false s.protectedMap s.unprotected [] made := by
  obtain ⟨alg, -, h⟩ := Session.bind_ofExcept_eq_ok h
  obtain ⟨data, -, h⟩ := Session.bind_ofExcept_eq_ok h
  obtain ⟨front, carried, rest, -, hrest, -⟩ := Session.bind_eq_ok h
  obtain ⟨hbuild, -⟩ := Session.ofExcept_eq_ok hrest
  exact ⟨_, hbuild, rfl, ⟨alg, rfl⟩, [], rfl⟩

theorem Tagging.header_of_create {context : Aad.Context} {key : Key} {payload header tag : Bytes}
    (h : create p context key protectedMap unprotected payload o = ⟨calls, .ok (header, tag)⟩) :
    ∃ alg, header = (ProtectedHeader.ofMap (Selection.record alg protectedMap unprotected)).bytes := by
  obtain ⟨alg, -, h⟩ := Session.bind_ofExcept_eq_ok h
  obtain ⟨content, -, h⟩ := Session.bind_ofExcept_eq_ok h
  obtain ⟨data, -, h⟩ := Session.bind_ofExcept_eq_ok h
  obtain ⟨k, -, h⟩ := Session.bind_ofExcept_eq_ok h
  obtain ⟨front, tag', rest, -, hrest, -⟩ := Session.bind_eq_ok h
  cases hrest
  exact ⟨alg, rfl⟩

theorem Mac0.drafted_of_create {key : MacKey} {payload : Bytes} {m : Mac0}
    (h : Mac0.create p key protectedMap unprotected payload o = ⟨calls, .ok m⟩) :
    Drafted (k := .mac0) false protectedMap unprotected [] m := by
  obtain ⟨front, ⟨header, tag⟩, rest, hcreate, hrest, -⟩ := Session.bind_eq_ok h
  obtain ⟨alg, rfl⟩ := Tagging.header_of_create hcreate
  obtain ⟨hbuild, -⟩ := Session.ofExcept_eq_ok hrest
  exact ⟨_, hbuild, rfl, ⟨alg, rfl⟩, [], rfl⟩

theorem Mac.drafted_of_create {key : MacKey} {payload : Bytes} {recipients : List Recipient}
    {m : Mac}
    (h : Mac.create p key protectedMap unprotected payload recipients o = ⟨calls, .ok m⟩) :
    Drafted (k := .mac) false protectedMap unprotected recipients m := by
  obtain ⟨⟨⟩, -, h⟩ := Session.bind_ofExcept_eq_ok h
  obtain ⟨front, ⟨header, tag⟩, rest, hcreate, hrest, -⟩ := Session.bind_eq_ok h
  obtain ⟨alg, rfl⟩ := Tagging.header_of_create hcreate
  obtain ⟨hbuild, -⟩ := Session.ofExcept_eq_ok hrest
  exact ⟨_, hbuild, rfl, ⟨alg, rfl⟩, [], rfl⟩

theorem Encryption.headers_of_create {context : Aad.Context} {key : Key} {plaintext : Bytes}
    {out : Output}
    (h : create p context key protectedMap unprotected plaintext o = ⟨calls, .ok out⟩) :
    (∃ alg, out.headerBytes =
        (ProtectedHeader.ofMap (Selection.record alg protectedMap unprotected)).bytes) ∧
      ∃ iv, out.unprotected = Nonce.record true iv protectedMap unprotected := by
  obtain ⟨alg, -, h⟩ := Session.bind_ofExcept_eq_ok h
  obtain ⟨content, -, h⟩ := Session.bind_ofExcept_eq_ok h
  obtain ⟨front, ⟨iv, written⟩, rest, hnonce, hrest, -⟩ := Session.bind_eq_ok h
  obtain ⟨aad, -, hrest⟩ := Session.bind_ofExcept_eq_ok hrest
  obtain ⟨k, -, hrest⟩ := Session.bind_ofExcept_eq_ok hrest
  obtain ⟨last, ciphertext, none', -, hout, -⟩ := Session.bind_eq_ok hrest
  cases hout
  obtain ⟨-, -, -, -, -, -, hwritten⟩ := Nonce.exists_named_of_toEncrypt hnonce
  rw [Nonce.isRecorded_record] at hwritten
  refine ⟨⟨alg, rfl⟩, iv, hwritten.trans ?_⟩
  rw [Nonce.record]
  cases Nonce.isRecorded protectedMap unprotected <;> rfl

theorem Encrypt0.drafted_of_encrypt {key : EncryptionKey} {plaintext : Bytes}
    {s : Sealed Encrypt0}
    (h : Encrypt0.encrypt p key protectedMap unprotected plaintext o = ⟨calls, .ok s⟩) :
    Drafted (k := .encrypt0) true protectedMap unprotected [] s.message := by
  obtain ⟨front, out, rest, hcreate, hrest, -⟩ := Session.bind_eq_ok h
  obtain ⟨m, hbuild, hrest⟩ := Session.bind_ofExcept_eq_ok hrest
  cases hrest
  obtain ⟨⟨alg, hheader⟩, hunprotected⟩ := Encryption.headers_of_create hcreate
  exact ⟨_, hbuild, rfl, ⟨alg, congrArg ProtectedSlot.bytes hheader⟩, hunprotected⟩

theorem Encrypt.drafted_of_encrypt {key : EncryptionKey} {plaintext : Bytes}
    {recipients : List Recipient} {s : Sealed Encrypt}
    (h : Encrypt.encrypt p key protectedMap unprotected plaintext recipients o = ⟨calls, .ok s⟩) :
    Drafted (k := .encrypt) true protectedMap unprotected recipients s.message := by
  obtain ⟨⟨⟩, -, h⟩ := Session.bind_ofExcept_eq_ok h
  obtain ⟨front, out, rest, hcreate, hrest, -⟩ := Session.bind_eq_ok h
  obtain ⟨m, hbuild, hrest⟩ := Session.bind_ofExcept_eq_ok hrest
  cases hrest
  obtain ⟨⟨alg, hheader⟩, hunprotected⟩ := Encryption.headers_of_create hcreate
  exact ⟨_, hbuild, rfl, ⟨alg, congrArg ProtectedSlot.bytes hheader⟩, hunprotected⟩

/-- A message with several signatures is built from a draft with its headers as they are given, and
with what each signer made. -/
theorem Sign.exists_draft_of_sign {payload : Bytes} {signers : List Signer} {m : Sign}
    (h : Sign.sign p protectedMap unprotected payload signers o = ⟨calls, .ok m⟩) :
    ∃ d : Draft .sign, d.build = .ok m ∧
      d.protectedSlot = .bytes (ProtectedHeader.ofMap protectedMap).bytes ∧
      d.unprotected = unprotected ∧
      List.Forall₂ (fun s made =>
        Drafted (k := .signature) false s.protectedMap s.unprotected [] made) signers d.parts := by
  obtain ⟨⟨⟩, -, h⟩ := Session.bind_ofExcept_eq_ok h
  obtain ⟨content, -, h⟩ := Session.bind_ofExcept_eq_ok h
  obtain ⟨front, signatures, rest, hmap, hrest, -⟩ := Session.bind_eq_ok h
  obtain ⟨hbuild, -⟩ := Session.ofExcept_eq_ok hrest
  have hall := Session.outcome_mapM_eq_ok_iff.mp (congrArg Session.outcome hmap)
  refine ⟨_, hbuild, rfl, rfl, hall.imp fun s made hs => ?_⟩
  exact Signer.drafted_of_sign (Session.eq_of_outcome hs)

theorem Sign.headers_of_sign {payload : Bytes} {signers : List Signer} {m : Sign}
    (h : Sign.sign p protectedMap unprotected payload signers o = ⟨calls, .ok m⟩) :
    (m.toHeaders.encode.length < 2 ^ 64 →
      m.protectedHeader.map = protectedMap ∧ m.unprotected = unprotected) ∧
    List.Forall₂ (fun s made => made.toHeaders.encode.length < 2 ^ 64 →
      made.toHeaders.Generated false s.protectedMap s.unprotected) signers m.signatures := by
  obtain ⟨d, hbuild, hslot, hunprotected, hall⟩ := Sign.exists_draft_of_sign h
  obtain ⟨hheaders, -, hparts, -⟩ := Draft.build_sign hbuild
  rw [hparts] at hall
  constructor
  · intro fits
    obtain ⟨-, heq⟩ := Draft.headers_eq_ok hslot hheaders
    rw [hunprotected] at heq
    exact ⟨Headers.map_eq (heq fits), congrArg Headers.unprotected (heq fits)⟩
  · exact hall.imp fun s made drafted fits => drafted.generated fits

end

open Selection

/-- Whatever is given in the headers is in those that are written, and the algorithm and a nonce are
the only entries added, exactly if no entry for the algorithm is overlooked. The body of a message
with several signatures carries the headers as they are given. Headers longer than a head can
announce are left out. -/
theorem headers_retained (p : Provider) (protectedMap unprotected : LabelMap) (content : Bytes)
    (o : Options) :
    (∀ (key : SigningKey) (m : Sign1),
      (Sign1.sign p key protectedMap unprotected content o).outcome = .ok m →
      m.toHeaders.encode.length < 2 ^ 64 →
      (m.toHeaders.Retains false protectedMap unprotected ↔
        ¬Overlooked protectedMap unprotected)) ∧
    (∀ (signers : List Signer) (m : Sign),
      (Sign.sign p protectedMap unprotected content signers o).outcome = .ok m →
      (m.toHeaders.encode.length < 2 ^ 64 →
        m.protectedHeader.map = protectedMap ∧ m.unprotected = unprotected) ∧
      List.Forall₂ (fun s made => made.toHeaders.encode.length < 2 ^ 64 →
        (made.toHeaders.Retains false s.protectedMap s.unprotected ↔
          ¬Overlooked s.protectedMap s.unprotected)) signers m.signatures) ∧
    (∀ (key : MacKey) (m : Mac0),
      (Mac0.create p key protectedMap unprotected content o).outcome = .ok m →
      m.toHeaders.encode.length < 2 ^ 64 →
      (m.toHeaders.Retains false protectedMap unprotected ↔
        ¬Overlooked protectedMap unprotected)) ∧
    (∀ (key : MacKey) (recipients : List Recipient) (m : Mac),
      (Mac.create p key protectedMap unprotected content recipients o).outcome = .ok m →
      m.toHeaders.encode.length < 2 ^ 64 →
      (m.toHeaders.Retains false protectedMap unprotected ↔
        ¬Overlooked protectedMap unprotected)) ∧
    (∀ (key : EncryptionKey) (s : Sealed Encrypt0),
      (Encrypt0.encrypt p key protectedMap unprotected content o).outcome = .ok s →
      s.message.toHeaders.encode.length < 2 ^ 64 →
      (s.message.toHeaders.Retains true protectedMap unprotected ↔
        ¬Overlooked protectedMap unprotected)) ∧
    ∀ (key : EncryptionKey) (recipients : List Recipient) (s : Sealed Encrypt),
      (Encrypt.encrypt p key protectedMap unprotected content recipients o).outcome = .ok s →
      s.message.toHeaders.encode.length < 2 ^ 64 →
      (s.message.toHeaders.Retains true protectedMap unprotected ↔
        ¬Overlooked protectedMap unprotected) := by
  refine ⟨?_, ?_, ?_, ?_, ?_, ?_⟩
  · intro key m h fits
    exact ((Sign1.drafted_of_sign (Session.eq_of_outcome h)).generated fits).retains_iff
  · intro signers m h
    obtain ⟨hbody, hall⟩ := Sign.headers_of_sign (Session.eq_of_outcome h)
    exact ⟨hbody, hall.imp fun s made generated fits => (generated fits).retains_iff⟩
  · intro key m h fits
    exact ((Mac0.drafted_of_create (Session.eq_of_outcome h)).generated fits).retains_iff
  · intro key recipients m h fits
    exact ((Mac.drafted_of_create (Session.eq_of_outcome h)).generated fits).retains_iff
  · intro key s h fits
    exact ((Encrypt0.drafted_of_encrypt (Session.eq_of_outcome h)).generated fits).retains_iff
  · intro key recipients s h fits
    exact ((Encrypt.drafted_of_encrypt (Session.eq_of_outcome h)).generated fits).retains_iff

/-- A header that says which key it is. -/
def LabelMap.ofKeyId : LabelMap := .insert .empty Header.keyId (.bytes [0x0b])

theorem headers_retained_accepting :
    (∃ m, (Sign1.sign .accepting .privateOnly .empty .ofKeyId [0x05]
      { algorithm := some .es256 }).outcome = .ok m ∧ m.toHeaders.Retains false .empty .ofKeyId) ∧
    (∃ m, (Sign.sign .accepting .empty .ofKeyId [0x05]
        [{ key := .privateOnly, protectedMap := .ofKeyId }] { algorithm := some .es256 }).outcome =
          .ok m ∧
      m.unprotected = .ofKeyId ∧
      ∃ made, m.signatures = [made] ∧ made.toHeaders.Retains false .ofKeyId .empty) ∧
    (∃ m, (Mac0.create .accepting .restricted .empty .ofKeyId [0x05] {}).outcome = .ok m ∧
      m.toHeaders.Retains false .empty .ofKeyId) ∧
    (∃ m, (Mac.create .accepting .restricted .empty .ofKeyId [0x05] [.direct [0x2a]] {}).outcome =
      .ok m ∧ m.toHeaders.Retains false .empty .ofKeyId) ∧
    (∃ s, (Encrypt0.encrypt .prepending .withBase .empty .ofKeyId [0x05] {}).outcome = .ok s ∧
      s.message.toHeaders.Retains true .empty .ofKeyId) ∧
    ∃ s, (Encrypt.encrypt .prepending .withBase .empty .ofKeyId [0x05] [.direct [0x2a]] {}).outcome =
      .ok s ∧ s.message.toHeaders.Retains true .empty .ofKeyId := by
  have h := headers_retained .accepting .empty .ofKeyId [0x05] { algorithm := some .es256 }
  obtain ⟨-, -, hmac0, hmac, -⟩ := headers_retained .accepting .empty .ofKeyId [0x05] {}
  obtain ⟨-, -, -, -, hencrypt0, hencrypt⟩ := headers_retained .prepending .empty .ofKeyId [0x05] {}
  refine ⟨?_, ?_, ?_, ?_, ?_, ?_⟩
  · exact ⟨_, rfl, (h.1 .privateOnly _ rfl (by decide +kernel)).mpr (by decide)⟩
  · obtain ⟨hbody, hall⟩ := h.2.1 [{ key := .privateOnly, protectedMap := .ofKeyId }] _ rfl
    have hmade := (List.forall₂_cons.mp hall).1
    exact ⟨_, rfl, (hbody (by decide +kernel)).2, _, rfl, (hmade (by decide +kernel)).mpr (by decide)⟩
  · exact ⟨_, rfl, (hmac0 .restricted _ rfl (by decide +kernel)).mpr (by decide)⟩
  · exact ⟨_, rfl, (hmac .restricted [.direct [0x2a]] _ rfl (by decide +kernel)).mpr (by decide)⟩
  · exact ⟨_, rfl, (hencrypt0 .withBase _ rfl (by decide +kernel)).mpr (by decide)⟩
  · exact ⟨_, rfl, (hencrypt .withBase [.direct [0x2a]] _ rfl (by decide +kernel)).mpr (by decide)⟩

/-- An entry for the algorithm that is a text gives way to the algorithm. -/
theorem algorithm_entry_lost_of_sign : ∃ m : Sign1,
    (Sign1.sign .accepting .privateOnly (.insert .empty Header.algorithm (.text "ES256")) .empty
      [0x05] { algorithm := some .es256 }).outcome = .ok m ∧
    m.protectedHeader.map.get? Header.algorithm = some (.int Algorithm.es256.id) ∧
    ¬m.toHeaders.Retains false (.insert .empty Header.algorithm (.text "ES256")) .empty := by
  refine ⟨_, rfl, rfl, ?_⟩
  intro retains
  have hkept := retains.protectedKept Header.algorithm (.text "ES256") rfl
  cases hkept

end Cose
