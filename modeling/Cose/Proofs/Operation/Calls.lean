import Cose.Operation.Keys
import Cose.Proofs.Operation.Encryption
import Cose.Proofs.Operation.Verification

namespace Cose

namespace Content

/-- A byte string that is there and not empty. -/
def Given (content : Option Bytes) : Prop := ∃ bs, content = some bs ∧ bs ≠ []

/-- Exactly one of embedded and detached content is given. -/
def Single (embedded detached : Option Bytes) : Prop :=
  (Given embedded ∧ ¬Given detached) ∨ (¬Given embedded ∧ Given detached)

theorem filter_eq_some_iff {content : Option Bytes} {bs : Bytes} :
    content.filter (!·.isEmpty) = some bs ↔ content = some bs ∧ bs ≠ [] := by
  simp [Option.filter_eq_some_iff]

theorem given_of_filter {content : Option Bytes} {bs : Bytes}
    (h : content.filter (!·.isEmpty) = some bs) : Given content := by
  exact ⟨bs, filter_eq_some_iff.mp h⟩

theorem not_given_of_filter {content : Option Bytes} (h : content.filter (!·.isEmpty) = none) :
    ¬Given content := by
  intro given
  obtain ⟨bs, hbs⟩ := given
  rw [filter_eq_some_iff.mpr hbs] at h
  cases h

theorem single_of_resolve {embedded detached : Option Bytes} {content : Bytes}
    (h : resolve embedded detached = .ok content) : Single embedded detached := by
  unfold resolve at h
  split at h
  next he hd => exact .inl ⟨given_of_filter he, not_given_of_filter hd⟩
  next he hd => exact .inr ⟨not_given_of_filter he, given_of_filter hd⟩
  next => cases h
  next => cases h

/-- Where something is put together from the content, exactly one content was given. -/
theorem single_of_bind {β : Type} {embedded detached : Option Bytes}
    {f : Bytes → Except Error β} {b : β}
    (h : (do let content ← resolve embedded detached
             f content : Except Error β) = .ok b) : Single embedded detached := by
  obtain ⟨content, hcontent, -⟩ := eq_ok_of_bind h
  exact single_of_resolve (eq_ok_of_mapError hcontent)

end Content

/-- A public part of a key that may be put before a provider: the one that the key carries, or what
the provider has derived from the private part of a key that carries none. -/
inductive Key.PublicPart (p : Provider) (key : Key) (curve : Curve) : PublicPoint → Prop
  | carried {point : PublicPoint} (own : key.Point curve point) : PublicPart p key curve point
  | derived {d : Bytes} {point : PublicPoint} (absent : key.material.x? = none)
      (scalar : key.Scalar curve d) (reply : p.reply (.derivePublic curve d) = .ok point) :
      PublicPart p key curve point

/-- The calls that may be made with a key to carry out an operation on a message. -/
inductive Call.Checked (p : Provider) (key : Key) : KeyOperation → Call → Prop
  | sign {alg : Algorithm} {curve : Curve} {d data : Bytes}
      (family : alg.family = .ecdsa ∨ alg.family = .edDsa) (allowed : key.Allows alg .sign)
      (listed : curve ∈ alg.spec.curves) (scalar : key.Scalar curve d) :
      Checked p key .sign (.sign alg curve d data)
  | derivePublic {curve : Curve} {d : Bytes} (absent : key.material.x? = none)
      (scalar : key.Scalar curve d) : Checked p key .verify (.derivePublic curve d)
  | verify {alg : Algorithm} {curve : Curve} {point : PublicPoint} {data signature : Bytes}
      (family : alg.family = .ecdsa ∨ alg.family = .edDsa) (allowed : key.Allows alg .verify)
      (on : key.curve? = some curve) (listed : curve ∈ alg.spec.curves)
      (part : key.PublicPart p curve point) :
      Checked p key .verify (.verify alg { point with curve } data signature)
  | mac {alg : Algorithm} {k data : Bytes} (family : alg.family = .hmac)
      (allowed : key.Allows alg .macCreate) (carried : key.material.k? = some k)
      (nonempty : k ≠ []) : Checked p key .macCreate (.mac alg k data)
  | macVerify {alg : Algorithm} {k data tag : Bytes} (family : alg.family = .hmac)
      (allowed : key.Allows alg .macVerify) (carried : key.material.k? = some k)
      (nonempty : k ≠ []) : Checked p key .macVerify (.macVerify alg k data tag)
  | random {alg : Algorithm} (family : alg.family = .aesGcm) (allowed : key.Allows alg .encrypt) :
      Checked p key .encrypt (.random alg.ivLength)
  | encrypt {alg : Algorithm} {k iv aad plaintext : Bytes} (family : alg.family = .aesGcm)
      (allowed : key.Allows alg .encrypt) (carried : key.material.k? = some k)
      (length : alg.spec.keyLength = some k.length) :
      Checked p key .encrypt (.encrypt alg k iv aad plaintext)
  | decrypt {alg : Algorithm} {k iv aad ciphertext : Bytes} (family : alg.family = .aesGcm)
      (allowed : key.Allows alg .decrypt) (carried : key.material.k? = some k)
      (length : alg.spec.keyLength = some k.length) :
      Checked p key .decrypt (.decrypt alg k iv aad ciphertext)

/-- The calls that may be made with a key to carry out an operation on a message with these contents:
none unless exactly one of them is given. -/
def Call.Proper (p : Provider) (key : Key) (op : KeyOperation) (embedded detached : Option Bytes)
    (c : Call) : Prop :=
  Content.Single embedded detached ∧ Call.Checked p key op c

/-- The calls that may be made for two keys to agree on a secret. -/
inductive Call.Agreeing (p : Provider) (mine peer : Key) : Call → Prop
  | derivePublic {curve : Curve} {d : Bytes} (agrees : curve.agrees = true)
      (on : mine.curve? = some curve) (absent : peer.material.x? = none)
      (scalar : peer.Scalar curve d) : Agreeing p mine peer (.derivePublic curve d)
  | agree {curve : Curve} {d : Bytes} {point : PublicPoint} (agrees : curve.agrees = true)
      (scalar : mine.Scalar curve d) (on : peer.curve? = some curve)
      (part : peer.PublicPart p curve point) :
      Agreeing p mine peer (.agree d { point with curve })

/-- A public part is only asked for if the key does not carry it. -/
theorem Key.onlyAsks_publicPoint {p : Provider} {key : Key} {curve : Curve} {missing : String}
    (on : key.curve? = some curve) : (key.publicPoint p curve missing).OnlyAsks fun c =>
      ∃ d, c = .derivePublic curve d ∧ key.material.x? = none ∧ key.Scalar curve d := by
  unfold publicPoint
  split
  next => exact .ofExcept _
  next absent =>
    refine .bind_mapError fun d hd => ?_
    exact .ask ⟨d, rfl, absent, scalar_of_d? on (eq_some_of_required hd)⟩

theorem Key.publicPart_of_publicPoint {p : Provider} {key : Key} {curve : Curve}
    {missing : String} {point : PublicPoint} (on : key.curve? = some curve)
    (h : (key.publicPoint p curve missing).outcome = .ok point) : key.PublicPart p curve point := by
  rcases publicPoint_eq_ok (Session.eq_of_outcome h) with
    ⟨-, hx, hy⟩ | ⟨absent, d, hd, -, reply⟩
  · have own := point_of_x? on hx
    rw [hy] at own
    exact .carried own
  · exact .derived absent (scalar_of_d? on hd) reply

open Selection

theorem Session.OnlyAsks.proper {α : Type} {s : Session α} {p : Provider} {key : Key}
    {op : KeyOperation} {embedded detached : Option Bytes}
    (h : s.OnlyAsks (Call.Checked p key op)) (single : Content.Single embedded detached) :
    s.OnlyAsks (Call.Proper p key op embedded detached) := by
  exact h.mono fun _ hc => ⟨single, hc⟩

section

variable {p : Provider} {key : Key} {alg : Algorithm} {op : KeyOperation}

theorem Selection.Passed.signs (h : Passed Purpose.signature.families op key alg) :
    alg.family = .ecdsa ∨ alg.family = .edDsa := by
  simpa [Purpose.signature] using h.family

theorem Selection.Passed.tags (h : Passed Purpose.tag.families op key alg) :
    alg.family = .hmac := by
  simpa [Purpose.tag] using h.family

theorem Selection.Passed.encrypts (h : Passed Purpose.encryption.families op key alg) :
    alg.family = .aesGcm := by
  simpa [Purpose.encryption] using h.family

theorem Algorithm.isSome_keyLength (h : alg.family = .aesGcm) : alg.spec.keyLength.isSome := by
  cases alg <;> first | rfl | cases h

/-- Authenticated ciphers all fix the length of their key. -/
theorem Selection.Passed.keyLength {k : Bytes}
    (h : Passed Purpose.encryption.families op key alg) (hk : key.material.k? = some k) :
    alg.spec.keyLength = some k.length := by
  obtain ⟨n, hn⟩ := Option.isSome_iff_exists.mp (Algorithm.isSome_keyLength h.encrypts)
  rw [hn, h.suits.length n k hn hk]

namespace Signing

theorem onlyAsks_create {data : Bytes} (h : Passed Purpose.signature.families .sign key alg) :
    (create p key alg data).OnlyAsks (Call.Checked p key .sign) := by
  refine .bind_mapError fun curve hcurve => ?_
  refine .bind_mapError fun d hd => ?_
  have on := Key.requiredCurve_eq_ok_iff.mp hcurve
  refine .bind ?_ fun signature _ => ?_
  · exact .ask (.sign h.signs h.allowed (h.suits.curve curve on)
      (Key.scalar_of_d? on (Key.eq_some_of_required hd)))
  · split
    next => exact .ofExcept _
    next => exact .ofExcept _

theorem onlyAsks_check {data signature : Bytes}
    (h : Passed Purpose.signature.families .verify key alg) :
    (check p key alg data signature).OnlyAsks (Call.Checked p key .verify) := by
  refine .bind_mapError fun curve hcurve => ?_
  have on := Key.requiredCurve_eq_ok_iff.mp hcurve
  refine .bind ?_ fun point hpoint => ?_
  · refine (Key.onlyAsks_publicPoint on).mono fun c hc => ?_
    obtain ⟨d, rfl, absent, scalar⟩ := hc
    exact .derivePublic absent scalar
  have verify : ∀ signature, (Session.ask p
      (.verify alg { point with curve } data signature)).OnlyAsks (Call.Checked p key .verify) := by
    intro signature
    exact .ask (.verify h.signs h.allowed on (h.suits.curve curve on)
      (Key.publicPart_of_publicPoint on hpoint))
  split
  next => exact .bind_ofExcept fun signature _ => verify signature
  next => exact .bind_ofExcept fun signature _ => verify signature

end Signing

namespace Tagging

theorem onlyAsks_create {context : Aad.Context} {protectedMap unprotected : LabelMap}
    {payload : Bytes} {o : Options} :
    (create p context key protectedMap unprotected payload o).OnlyAsks
      (Call.Proper p key .macCreate (some payload) o.detached) := by
  refine .bind_ofExcept fun alg halg => ?_
  have h := (toProduce_eq_ok halg).2
  refine .bind_mapError fun content hcontent => ?_
  refine .bind_mapError fun data _ => ?_
  refine .bind_mapError fun k hk => ?_
  have hk := Key.eq_some_of_required hk
  refine .bind ?_ fun tag _ => .ofExcept _
  exact .ask ⟨Content.single_of_resolve hcontent,
    .mac h.tags h.allowed hk (Key.ne_nil_of_k? hk)⟩

theorem onlyAsks_check {data tag : Bytes} (h : Passed Purpose.tag.families .macVerify key alg) :
    (check p key alg data tag).OnlyAsks (Call.Checked p key .macVerify) := by
  refine .bind_mapError fun k hk => ?_
  have hk := Key.eq_some_of_required hk
  exact .ask (.macVerify h.tags h.allowed hk (Key.ne_nil_of_k? hk))

end Tagging

/-- A nonce that nobody names is drawn at random. -/
theorem Nonce.onlyAsks_toEncrypt {protectedMap unprotected : LabelMap} {explicit : Option Bytes} :
    (toEncrypt p key alg protectedMap unprotected explicit).OnlyAsks
      (· = .random alg.ivLength) := by
  refine .bind_ofExcept fun found _ => ?_
  refine .bind_mapError fun named _ => ?_
  have recorded : ∀ iv, (if isRecorded protectedMap unprotected then pure (iv, unprotected)
      else pure (iv, unprotected.insert Header.iv (.bytes iv)) :
        Session (Bytes × LabelMap)).OnlyAsks (· = .random alg.ivLength) := by
    intro iv
    split
    next => exact .ofExcept _
    next => exact .ofExcept _
  cases named with
  | some iv => exact .bind (.ofExcept (.ok iv)) fun iv _ => recorded iv
  | none => exact .bind (.ask rfl) fun iv _ => recorded iv

namespace Encryption

theorem onlyAsks_create {context : Aad.Context} {protectedMap unprotected : LabelMap}
    {plaintext : Bytes} {o : Options} :
    (create p context key protectedMap unprotected plaintext o).OnlyAsks
      (Call.Proper p key .encrypt (some plaintext) o.detached) := by
  refine .bind_ofExcept fun alg halg => ?_
  have h := (toProduce_eq_ok halg).2
  refine .bind_mapError fun content hcontent => ?_
  have single := Content.single_of_resolve hcontent
  refine .bind ?_ fun nonce _ => ?_
  · refine Nonce.onlyAsks_toEncrypt.mono fun c hc => ?_
    rw [hc]
    exact ⟨single, .random h.encrypts h.allowed⟩
  refine .bind_mapError fun aad _ => ?_
  refine .bind_mapError fun k hk => ?_
  have hk := Key.eq_some_of_required hk
  refine .bind ?_ fun ciphertext _ => .ofExcept _
  exact .ask ⟨single, .encrypt h.encrypts h.allowed hk (h.keyLength hk)⟩

theorem onlyAsks_undo {headers : Headers} {embedded : Option Bytes} {aad : Except Error Bytes}
    {o : Options} : (undo p key headers embedded aad o).OnlyAsks
      (Call.Proper p key .decrypt embedded o.detached) := by
  refine .bind_ofExcept fun alg halg => ?_
  have h := passed_of_toCheck halg
  refine .bind_mapError fun ciphertext hciphertext => ?_
  refine .bind_ofExcept fun iv _ => ?_
  refine .bind_ofExcept fun aad _ => ?_
  refine .bind_mapError fun k hk => ?_
  have hk := Key.eq_some_of_required hk
  exact .ask ⟨Content.single_of_resolve hciphertext,
    .decrypt h.encrypts h.allowed hk (h.keyLength hk)⟩

end Encryption

end

theorem Signer.onlyAsks_sign {s : Signer} {p : Provider} {body content : Bytes} {o : Options} :
    (s.sign p body content o).OnlyAsks (Call.Checked p s.key.key .sign) := by
  refine .bind_ofExcept fun alg halg => ?_
  have passed := (toProduce_eq_ok halg).2
  refine .bind_mapError fun data _ => ?_
  refine .bind (Signing.onlyAsks_create passed) fun signature _ => ?_
  exact .ofExcept _

section

variable {p : Provider} {protectedMap unprotected : LabelMap} {payload plaintext : Bytes}
  {recipients : List Recipient} {o : Options}

theorem Sign1.onlyAsks_sign {key : SigningKey} :
    (sign p key protectedMap unprotected payload o).OnlyAsks
      (Call.Proper p key.key .sign (some payload) o.detached) := by
  refine .bind_ofExcept fun alg halg => ?_
  have passed := (toProduce_eq_ok halg).2
  refine .bind_mapError fun content hcontent => ?_
  have single := Content.single_of_resolve hcontent
  refine .bind_mapError fun data _ => ?_
  refine .bind ((Signing.onlyAsks_create passed).proper single) fun signature _ => ?_
  exact .ofExcept _

theorem Sign1.onlyAsks_verify {key : SigningKey} {m : Sign1} :
    (m.verify p key o).OnlyAsks (Call.Proper p key.key .verify m.payload o.detached) := by
  refine .bind_ofExcept fun alg halg => ?_
  have passed := passed_of_toCheck halg
  refine .bind_ofExcept fun data hdata => ?_
  have single := Content.single_of_bind hdata
  exact (Signing.onlyAsks_check passed).proper single

/-- Each signer's key is put to use for that signer alone. -/
theorem Sign.onlyAsks_sign {signers : List Signer} :
    (sign p protectedMap unprotected payload signers o).OnlyAsks fun c =>
      ∃ s ∈ signers, Call.Proper p s.key.key .sign (some payload) o.detached c := by
  refine .bind_mapError fun _ _ => ?_
  refine .bind_mapError fun content hcontent => ?_
  have single := Content.single_of_resolve hcontent
  refine .bind (.mapM fun s hs => ?_) fun signatures _ => .ofExcept _
  exact (s.onlyAsks_sign.proper single).mono fun c hc => ⟨s, hs, hc⟩

theorem Sign.onlyAsks_verify {key : SigningKey} {m : Sign} {index : Nat} :
    (m.verify p key index o).OnlyAsks
      (Call.Proper p key.key .verify m.payload o.detached) := by
  unfold verify
  split
  next => exact .ofExcept _
  next s _ =>
    refine .bind_ofExcept fun alg halg => ?_
    have passed := passed_of_toCheck halg
    refine .bind_ofExcept fun data hdata => ?_
    have single := Content.single_of_bind hdata
    exact (Signing.onlyAsks_check passed).proper single

theorem Mac0.onlyAsks_create {key : MacKey} :
    (create p key protectedMap unprotected payload o).OnlyAsks
      (Call.Proper p key.key .macCreate (some payload) o.detached) := by
  exact .bind Tagging.onlyAsks_create fun _ _ => .ofExcept _

theorem Mac0.onlyAsks_verify {key : MacKey} {m : Mac0} :
    (m.verify p key o).OnlyAsks
      (Call.Proper p key.key .macVerify m.payload o.detached) := by
  refine .bind_ofExcept fun alg halg => ?_
  have passed := passed_of_toCheck halg
  refine .bind_ofExcept fun data hdata => ?_
  have single := Content.single_of_bind hdata
  exact (Tagging.onlyAsks_check passed).proper single

theorem Mac.onlyAsks_create {key : MacKey} :
    (create p key protectedMap unprotected payload recipients o).OnlyAsks
      (Call.Proper p key.key .macCreate (some payload) o.detached) := by
  refine .bind_mapError fun _ _ => ?_
  exact .bind Tagging.onlyAsks_create fun _ _ => .ofExcept _

theorem Mac.onlyAsks_verify {key : MacKey} {m : Mac} :
    (m.verify p key o).OnlyAsks
      (Call.Proper p key.key .macVerify m.payload o.detached) := by
  refine .bind_ofExcept fun alg halg => ?_
  have passed := passed_of_toCheck halg
  refine .bind_ofExcept fun data hdata => ?_
  have single := Content.single_of_bind hdata
  exact (Tagging.onlyAsks_check passed).proper single

theorem Encrypt0.onlyAsks_encrypt {key : EncryptionKey} :
    (encrypt p key protectedMap unprotected plaintext o).OnlyAsks
      (Call.Proper p key.key .encrypt (some plaintext) o.detached) := by
  refine .bind Encryption.onlyAsks_create fun out _ => ?_
  exact .bind_ofExcept fun message _ => .ofExcept _

theorem Encrypt.onlyAsks_encrypt {key : EncryptionKey} :
    (encrypt p key protectedMap unprotected plaintext recipients o).OnlyAsks
      (Call.Proper p key.key .encrypt (some plaintext) o.detached) := by
  refine .bind_mapError fun _ _ => ?_
  refine .bind Encryption.onlyAsks_create fun out _ => ?_
  exact .bind_ofExcept fun message _ => .ofExcept _

end

namespace Key

/-- Two keys that agree on a secret lie on one curve, on which keys can agree. -/
theorem onlyAsks_agree {p : Provider} {mine peer : AgreementKey} :
    (agree p mine peer).OnlyAsks (Call.Agreeing p mine.key peer.key) := by
  refine .bind_mapError fun curve hcurve => ?_
  refine .bind_mapError fun other hother => ?_
  have on := requiredCurve_eq_ok_iff.mp hcurve
  have hpeer := requiredCurve_eq_ok_iff.mp hother
  have agrees := RoleKey.agrees_of_curve? on
  split
  next heq =>
    subst heq
    refine .bind_mapError fun d hd => ?_
    refine .bind ?_ fun point hpoint => ?_
    · refine (onlyAsks_publicPoint hpeer).mono fun c hc => ?_
      obtain ⟨d, rfl, absent, scalar⟩ := hc
      exact .derivePublic agrees on absent scalar
    · exact .ask (.agree agrees (scalar_of_d? on (eq_some_of_required hd)) hpeer
        (publicPart_of_publicPoint hpeer hpoint))
  next => exact .bind_ofExcept fun _ h => nomatch h

end Key

/-- Every call to a provider is made with inputs that were checked: the calls of the twelve
operations on messages, which are only made for exactly one content, and those by which two keys
agree on a secret. -/
theorem calls_checked (p : Provider) (o : Options) :
    (∀ (key : SigningKey) (protectedMap unprotected : LabelMap) (payload : Bytes),
      (Sign1.sign p key protectedMap unprotected payload o).OnlyAsks
        (Call.Proper p key.key .sign (some payload) o.detached)) ∧
    (∀ (key : SigningKey) (m : Sign1),
      (m.verify p key o).OnlyAsks (Call.Proper p key.key .verify m.payload o.detached)) ∧
    (∀ (protectedMap unprotected : LabelMap) (payload : Bytes) (signers : List Signer),
      (Sign.sign p protectedMap unprotected payload signers o).OnlyAsks fun c =>
        ∃ s ∈ signers, Call.Proper p s.key.key .sign (some payload) o.detached c) ∧
    (∀ (key : SigningKey) (m : Sign) (index : Nat),
      (m.verify p key index o).OnlyAsks
        (Call.Proper p key.key .verify m.payload o.detached)) ∧
    (∀ (key : MacKey) (protectedMap unprotected : LabelMap) (payload : Bytes),
      (Mac0.create p key protectedMap unprotected payload o).OnlyAsks
        (Call.Proper p key.key .macCreate (some payload) o.detached)) ∧
    (∀ (key : MacKey) (m : Mac0),
      (m.verify p key o).OnlyAsks (Call.Proper p key.key .macVerify m.payload o.detached)) ∧
    (∀ (key : MacKey) (protectedMap unprotected : LabelMap) (payload : Bytes)
        (recipients : List Recipient),
      (Mac.create p key protectedMap unprotected payload recipients o).OnlyAsks
        (Call.Proper p key.key .macCreate (some payload) o.detached)) ∧
    (∀ (key : MacKey) (m : Mac),
      (m.verify p key o).OnlyAsks (Call.Proper p key.key .macVerify m.payload o.detached)) ∧
    (∀ (key : EncryptionKey) (protectedMap unprotected : LabelMap) (plaintext : Bytes),
      (Encrypt0.encrypt p key protectedMap unprotected plaintext o).OnlyAsks
        (Call.Proper p key.key .encrypt (some plaintext) o.detached)) ∧
    (∀ (key : EncryptionKey) (m : Encrypt0),
      (m.decrypt p key o).OnlyAsks (Call.Proper p key.key .decrypt m.ciphertext o.detached)) ∧
    (∀ (key : EncryptionKey) (protectedMap unprotected : LabelMap) (plaintext : Bytes)
        (recipients : List Recipient),
      (Encrypt.encrypt p key protectedMap unprotected plaintext recipients o).OnlyAsks
        (Call.Proper p key.key .encrypt (some plaintext) o.detached)) ∧
    (∀ (key : EncryptionKey) (m : Encrypt),
      (m.decrypt p key o).OnlyAsks (Call.Proper p key.key .decrypt m.ciphertext o.detached)) ∧
    ∀ mine peer : AgreementKey,
      (Key.agree p mine peer).OnlyAsks (Call.Agreeing p mine.key peer.key) := by
  refine ⟨?_, ?_, ?_, ?_, ?_, ?_, ?_, ?_, ?_, ?_, ?_, ?_, ?_⟩
  · intros
    exact Sign1.onlyAsks_sign
  · intros
    exact Sign1.onlyAsks_verify
  · intros
    exact Sign.onlyAsks_sign
  · intros
    exact Sign.onlyAsks_verify
  · intros
    exact Mac0.onlyAsks_create
  · intros
    exact Mac0.onlyAsks_verify
  · intros
    exact Mac.onlyAsks_create
  · intros
    exact Mac.onlyAsks_verify
  · intros
    exact Encrypt0.onlyAsks_encrypt
  · intros
    exact Encryption.onlyAsks_undo
  · intros
    exact Encrypt.onlyAsks_encrypt
  · intros
    exact Encryption.onlyAsks_undo
  · intros
    exact Key.onlyAsks_agree

theorem calls_checked_accepting :
    (∃ c c', (Sign1.verify .accepting .privateOnly
        ⟨⟨.ofMap .empty, .empty⟩, some [0x05], List.replicate 64 0x03⟩
        { algorithm := some .es256 }).calls = [c, c'] ∧
      Call.Proper .accepting SigningKey.privateOnly.key .verify (some [0x05]) none c ∧
      Call.Proper .accepting SigningKey.privateOnly.key .verify (some [0x05]) none c') ∧
    (∃ c c', (Encrypt0.encrypt .prepending .withBase .empty .empty []
        { detached := some [0x05] }).calls = [c, c'] ∧
      Call.Proper .prepending EncryptionKey.withBase.key .encrypt (some []) (some [0x05]) c ∧
      Call.Proper .prepending EncryptionKey.withBase.key .encrypt (some []) (some [0x05]) c') ∧
    ∃ c c', (Key.agree .accepting ⟨SigningKey.privateOnly.key, rfl⟩
        ⟨SigningKey.privateOnly.key, rfl⟩).calls = [c, c'] ∧
      Call.Agreeing .accepting SigningKey.privateOnly.key SigningKey.privateOnly.key c ∧
      Call.Agreeing .accepting SigningKey.privateOnly.key SigningKey.privateOnly.key c' := by
  obtain ⟨-, hverify, -⟩ := calls_checked .accepting { algorithm := some .es256 }
  obtain ⟨-, -, -, -, -, -, -, -, hencrypt, -⟩ :=
    calls_checked .prepending { detached := some [0x05] }
  obtain ⟨-, -, -, -, -, -, -, -, -, -, -, -, hagree⟩ := calls_checked .accepting {}
  have verify := hverify .privateOnly
    ⟨⟨.ofMap .empty, .empty⟩, some [0x05], List.replicate 64 0x03⟩
  have encrypt := hencrypt .withBase .empty .empty []
  have agree := hagree ⟨SigningKey.privateOnly.key, rfl⟩ ⟨SigningKey.privateOnly.key, rfl⟩
  refine ⟨⟨_, _, rfl, ?_, ?_⟩, ⟨_, _, rfl, ?_, ?_⟩, _, _, rfl, ?_, ?_⟩
  · exact verify _ (List.mem_cons_self)
  · exact verify _ (List.mem_cons_of_mem _ List.mem_cons_self)
  · exact encrypt _ (List.mem_cons_self)
  · exact encrypt _ (List.mem_cons_of_mem _ List.mem_cons_self)
  · exact agree _ (List.mem_cons_self)
  · exact agree _ (List.mem_cons_of_mem _ List.mem_cons_self)

end Cose
