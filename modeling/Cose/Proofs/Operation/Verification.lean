import Cose.Operation.Signing
import Cose.Operation.Tagging
import Cose.Proofs.Ecdsa.Conversion
import Cose.Proofs.Message.Arrival
import Cose.Proofs.Operation.Selection

namespace Cose

open Message Selection

namespace Signing

/-- The provider decides about a signature, with a public part that it derives if the key does not
carry it. -/
def decision (p : Provider) (key : Key) (alg : Algorithm) (curve : Curve)
    (d data signature : Bytes) : Session Unit := do
  let point ← match key.material.x? with
    | some x => pure ⟨x, key.material.y?⟩
    | none => Session.ask p (.derivePublic curve d)
  Session.ask p (.verify alg { point with curve } data signature)

/-- A verification agrees with the call by which something was signed. It can be given the algorithm
that the signer was given, or none. Somebody must name the algorithm, the key must not be restricted
to other operations, and the provider decides about the answer that it gave to the call. -/
def Agrees (p : Provider) (key : Key) (explicit : Option Algorithm) (header : LabelMap)
    (call : Call) (verify : Option Algorithm → Session Unit) : Prop :=
  ∃ alg curve d data signature, call = .sign alg curve d data ∧
    p.reply (.sign alg curve d data) = .ok signature ∧
    ∀ given, given = explicit ∨ given = none → verify given =
      if Unnamed given header key then .ofExcept (.error (.missingHeader "alg"))
      else if key.operations ≠ [] ∧ .verify ∉ key.operations then
        .ofExcept (.error (.key (.operationNotAllowed .verify)))
      else decision p key alg curve d data signature

/-- What a signature was brought into another form from is got back from that form. -/
theorem conversion_restores {p : Provider} {alg : Algorithm} {given carried : Bytes}
    {calls : List Call}
    (h : (match conversion p alg with
      | some length => (liftM (Ecdsa.fixedOfDer given length) : Session Bytes)
      | none => pure given) = ⟨calls, .ok carried⟩) :
    calls = [] ∧ ∀ f : Bytes → Session Unit, (match conversion p alg with
      | some length => (liftM (Ecdsa.derOfFixed carried length) : Session Bytes) >>= f
      | none => pure carried >>= f) = f given := by
  cases hc : conversion p alg with
  | none =>
    rw [hc] at h
    cases h
    exact ⟨rfl, fun f => Session.ok_bind given f⟩
  | some length =>
    rw [hc] at h
    obtain ⟨hf, rfl⟩ := Session.ofExcept_eq_ok h
    have hd := Ecdsa.derOfFixed_of_fixedOfDer (eq_ok_of_mapError (eq_ok_of_mapError hf))
    refine ⟨rfl, fun f => ?_⟩
    dsimp only
    rw [hd]
    exact Session.ok_bind given f

theorem bind_publicPoint {key : Key} {d : Bytes} (h : key.material.d? = some d) (p : Provider)
    (alg : Algorithm) (curve : Curve) (missing : String) (data signature : Bytes) :
    (key.publicPoint p curve missing >>= fun point =>
      Session.ask p (.verify alg { point with curve } data signature)) =
      decision p key alg curve d data signature := by
  rw [Key.publicPoint, decision]
  cases key.material.x? with
  | some x => rfl
  | none =>
    rw [h]
    exact congrArg (· >>= _) (Session.ok_bind d _)

/-- A signature is made by one call, and checking it in the form in which it travels puts the answer
to that call before the provider. -/
theorem create_eq_ok {p : Provider} {key : Key} {alg : Algorithm} {data signature : Bytes}
    {calls : List Call} (h : create p key alg data = ⟨calls, .ok signature⟩) :
    ∃ curve d given, calls = [.sign alg curve d data] ∧
      p.reply (.sign alg curve d data) = .ok given ∧
      check p key alg data signature = decision p key alg curve d data given := by
  obtain ⟨curve, hcurve, h⟩ := Session.bind_mapError_eq_ok h
  obtain ⟨d, hd, h⟩ := Session.bind_mapError_eq_ok h
  obtain ⟨front, given, rest, hask, hrest, rfl⟩ := Session.bind_eq_ok h
  obtain ⟨hreply, rfl⟩ := Session.ask_eq_ok hask
  obtain ⟨rfl, hconv⟩ := conversion_restores hrest
  refine ⟨curve, d, given, rfl, hreply, ?_⟩
  have hcurve : key.requiredCurve = .ok curve := hcurve
  rw [check, hcurve, ← bind_publicPoint (Key.eq_some_of_required hd) p alg curve "d"]
  refine (Session.ok_bind curve _).trans ?_
  refine congrArg (key.publicPoint p curve "d" >>= ·) (funext fun point => ?_)
  exact hconv _

/-- Whatever is checked below the header that was written for it, over the data that was signed. -/
theorem agrees_of_create {p : Provider} {key : Key} {explicit : Option Algorithm}
    {protectedMap unprotected : LabelMap} {alg : Algorithm} {data carried : Bytes}
    {calls : List Call} (halg : toProduce .signature explicit protectedMap unprotected key = .ok alg)
    (hcreate : create p key alg data = ⟨calls, .ok carried⟩) :
    ∃ call, calls = [call] ∧ ∀ {headers : Headers} {body : Except Error Bytes},
      headers = ⟨.ofMap (record alg protectedMap unprotected), unprotected⟩ → body = .ok data →
      Agrees p key explicit headers.protectedHeader.map call fun given => (do
        let alg ← toCheck .signature given headers key
        let data ← body
        check p key alg data carried) := by
  obtain ⟨curve, d, signature, rfl, hreply, hcheck⟩ := create_eq_ok hcreate
  refine ⟨_, rfl, ?_⟩
  intro headers body hheaders hbody
  refine ⟨alg, curve, d, data, signature, rfl, hreply, fun given hg => ?_⟩
  refine ((chosen_of_toProduce halg).bind_toCheck hg (Headers.map_eq hheaders)
    (by rw [hheaders]) _).trans ?_
  rw [hbody, ← hcheck]
  rfl

end Signing

/-- The data that is authenticated along with some content. -/
theorem authenticated_eq {embedded detached : Option Bytes} {content data : Bytes} {a : Bytes → Aad}
    (hc : Content.resolve embedded detached = .ok content) (hd : (a content).encode = .ok data) :
    (do let payload ← Content.resolve embedded detached
        (a payload).encode : Except Error Bytes) = .ok data := by
  rw [hc]
  show Except.mapError Error.draft (a content).encode = .ok data
  rw [hd]
  rfl

theorem Sign1.verify_of_sign {p : Provider} {key : SigningKey} {protectedMap unprotected : LabelMap}
    {payload : Bytes} {o : Options} {calls : List Call} {m : Sign1}
    (h : Sign1.sign p key protectedMap unprotected payload o = ⟨calls, .ok m⟩)
    (fits : m.encode.length < 2 ^ 64) :
    ∃ call, calls = [call] ∧ ∀ arrived, Received (k := .sign1) m arrived →
      Signing.Agrees p key.key o.algorithm m.protectedHeader.map call fun given =>
        Sign1.verify p key arrived { o with algorithm := given } := by
  obtain ⟨alg, halg, h⟩ := Session.bind_ofExcept_eq_ok h
  obtain ⟨content, hcontent, h⟩ := Session.bind_mapError_eq_ok h
  obtain ⟨data, hdata, h⟩ := Session.bind_mapError_eq_ok h
  obtain ⟨front, carried, rest, hcreate, hrest, rfl⟩ := Session.bind_eq_ok h
  obtain ⟨hbuild, rfl⟩ := Session.ofExcept_eq_ok hrest
  obtain ⟨call, rfl, agrees⟩ := Signing.agrees_of_create halg hcreate
  obtain ⟨hheaders, hpayload, htoken⟩ := Draft.build_sign1 hbuild
  obtain rfl : carried = m.signature := Option.some.inj htoken
  refine ⟨call, rfl, ?_⟩
  intro arrived hr
  obtain ⟨harrived, heq⟩ := Received.arrival (k := .sign1) (P := (· = m)) hr rfl hheaders
    fits rfl (fun hf => Sign1.gives_read hf fits)
  subst harrived
  have hbytes := Headers.bytes_eq heq
  have hresolve := (ContentSlot.resolve_ofContent hpayload o.detached).trans hcontent
  rw [← hbytes] at hdata
  exact agrees heq (authenticated_eq hresolve hdata)

/-- What is known of a signature that a signer has made by a call. -/
structure Signer.Made (p : Provider) (s : Signer) (body content : Bytes) (o : Options)
    (signature : Signature) (call : Call) : Prop where
  faithful : signature.toHeaders.Faithful
  agrees : signature.toHeaders.encode.length < 2 ^ 64 → ∀ {tbs : Except Error Bytes},
    (∀ data, (Aad.signature body signature.protectedHeader.bytes o.externalAad content).encode =
      .ok data → tbs = .ok data) →
    Signing.Agrees p s.key.key (s.algorithm <|> o.algorithm) signature.protectedHeader.map call
      fun given => (do
        let alg ← toCheck .signature given signature.toHeaders s.key.key
        let data ← tbs
        Signing.check p s.key.key alg data signature.signature)

theorem Signer.made_of_sign {p : Provider} {s : Signer} {body content : Bytes} {o : Options}
    {calls : List Call} {signature : Signature}
    (h : s.sign p body content o = ⟨calls, .ok signature⟩) :
    ∃ call, calls = [call] ∧ s.Made p body content o signature call := by
  obtain ⟨alg, halg, h⟩ := Session.bind_ofExcept_eq_ok h
  obtain ⟨data, hdata, h⟩ := Session.bind_mapError_eq_ok h
  obtain ⟨front, carried, rest, hcreate, hrest, rfl⟩ := Session.bind_eq_ok h
  obtain ⟨hbuild, rfl⟩ := Session.ofExcept_eq_ok hrest
  obtain ⟨call, rfl, agrees⟩ := Signing.agrees_of_create halg hcreate
  obtain ⟨hheaders, htoken⟩ := Draft.build_signature hbuild
  obtain rfl : carried = signature.signature := Option.some.inj htoken
  obtain ⟨hfaithful, heq⟩ := Draft.headers_eq_ok rfl hheaders
  refine ⟨call, rfl, hfaithful, fun fits tbs htbs => ?_⟩
  have hbytes := Headers.bytes_eq (heq fits)
  rw [← hbytes] at hdata
  exact agrees (heq fits) (htbs data hdata)

theorem Sign.verify_of_sign {p : Provider} {protectedMap unprotected : LabelMap} {payload : Bytes}
    {signers : List Signer} {o : Options} {calls : List Call} {m : Sign}
    (h : Sign.sign p protectedMap unprotected payload signers o = ⟨calls, .ok m⟩)
    (fits : m.encode.length < 2 ^ 64) :
    calls.length = signers.length ∧ m.signatures.length = signers.length ∧
      ∀ (i : Nat) (s : Signer), signers[i]? = some s → ∃ signature call,
        m.signatures[i]? = some signature ∧ calls[i]? = some call ∧
        ∀ arrived, Received (k := .sign) m arrived →
          Signing.Agrees p s.key.key (s.algorithm <|> o.algorithm) signature.protectedHeader.map call
            fun given => Sign.verify p s.key arrived i { o with algorithm := given } := by
  obtain ⟨⟨⟩, hne, h⟩ := Session.bind_mapError_eq_ok h
  obtain ⟨content, hcontent, h⟩ := Session.bind_mapError_eq_ok h
  obtain ⟨front, signatures, rest, hmap, hrest, rfl⟩ := Session.bind_eq_ok h
  obtain ⟨hbuild, rfl⟩ := Session.ofExcept_eq_ok hrest
  obtain ⟨hheaders, hpayload, hparts, hnil⟩ := Draft.build_sign hbuild
  obtain rfl : signatures = m.signatures := hparts
  obtain ⟨hcalls, hlength, hall⟩ := Session.mapM_eq_ok hmap fun s _ _ _ hs => Signer.made_of_sign hs
  rw [List.append_nil]
  refine ⟨hcalls, hlength, ?_⟩
  intro i s hs
  obtain ⟨signature, call, hsignature, hcall, made⟩ := hall i s hs
  refine ⟨signature, call, hsignature, hcall, ?_⟩
  intro arrived hr
  have hsl : signature.toHeaders.encode.length ≤ m.encode.length := by
    have hmem := length_le_of_mem_flatMap (f := Signature.encode) (List.mem_of_getElem? hsignature)
    simp only [Sign.encode, Signature.encode, List.length_append] at hmem ⊢
    omega
  -- Each signature was built, so its map stands for its bytes and reading cannot change it.
  have hfaithful : ∀ t ∈ m.signatures, t.toHeaders.Faithful := by
    intro t ht
    obtain ⟨j, hj, rfl⟩ := List.mem_iff_getElem.mp ht
    obtain ⟨t, _, ht, _, hmade⟩ := hall j _ (List.getElem?_eq_getElem (hlength ▸ hj))
    rw [List.getElem?_eq_getElem hj] at ht
    exact Option.some.inj ht ▸ hmade.faithful
  obtain ⟨harrived, heq⟩ := Received.arrival (k := .sign) (P := (· = m)) hr rfl hheaders fits rfl
    (fun hf => Sign.gives_read hf hnil hfaithful fits)
  subst harrived
  have hbytes := Headers.bytes_eq heq
  have hresolve := (ContentSlot.resolve_ofContent hpayload o.detached).trans hcontent
  simp only [Sign.verify, hsignature]
  refine made.agrees (by omega) fun data hdata => ?_
  rw [← hbytes] at hdata
  exact authenticated_eq hresolve hdata

namespace Tagging

/-- A verification agrees with the call by which a tag was made. It can be given the algorithm that
was given when the tag was made, or none. Somebody must name the algorithm, and the provider decides
about the answer that it gave to the call. -/
def Agrees (p : Provider) (key : Key) (explicit : Option Algorithm) (header : LabelMap)
    (call : Call) (verify : Option Algorithm → Session Unit) : Prop :=
  ∃ alg k data tag, call = .mac alg k data ∧ p.reply (.mac alg k data) = .ok tag ∧
    ∀ given, given = explicit ∨ given = none → verify given =
      if Unnamed given header key then .ofExcept (.error (.missingHeader "alg"))
      else Session.ask p (.macVerify alg k data tag)

/-- A tag is checked below the header that was written for it. A key for tags is never restricted to
one of their operations, so only a missing name of the algorithm can come before the check. -/
theorem agrees_of_create {p : Provider} {context : Aad.Context} {key : MacKey}
    {protectedMap unprotected : LabelMap} {payload : Bytes} {o : Options} {calls : List Call}
    {header tag : Bytes}
    (h : create p context key.key protectedMap unprotected payload o = ⟨calls, .ok (header, tag)⟩) :
    ∃ call recorded, calls = [call] ∧ header = (ProtectedHeader.ofMap recorded).bytes ∧
      ∀ {headers : Headers} {embedded : Option Bytes}, headers = ⟨.ofMap recorded, unprotected⟩ →
        (ContentSlot.ofContent payload).resolve "payload" = .ok embedded →
        Agrees p key.key o.algorithm headers.protectedHeader.map call fun given => (do
          let alg ← toCheck .tag given headers key.key
          let data ← (do
            let payload ← Content.resolve embedded o.detached
            (Aad.mac context headers.protectedHeader.bytes o.externalAad payload).encode :
              Except Error Bytes)
          check p key.key alg data tag) := by
  obtain ⟨alg, halg, h⟩ := Session.bind_ofExcept_eq_ok h
  obtain ⟨content, hcontent, h⟩ := Session.bind_mapError_eq_ok h
  obtain ⟨data, hdata, h⟩ := Session.bind_mapError_eq_ok h
  obtain ⟨k, hk, h⟩ := Session.bind_mapError_eq_ok h
  obtain ⟨front, tag', rest, hask, hrest, rfl⟩ := Session.bind_eq_ok h
  obtain ⟨hreply, rfl⟩ := Session.ask_eq_ok hask
  cases hrest
  refine ⟨_, record alg protectedMap unprotected, rfl, rfl, ?_⟩
  intro headers embedded hheaders hembedded
  refine ⟨alg, k, data, tag, rfl, hreply, fun given hg => ?_⟩
  have hbytes := Headers.bytes_eq hheaders
  have hresolve := (ContentSlot.resolve_ofContent hembedded o.detached).trans hcontent
  have hk : Key.required "k" key.key.material.k? = .ok k := hk
  have hcheck : check p key.key alg data tag = Session.ask p (.macVerify alg k data tag) := by
    rw [check, hk]
    exact Session.ok_bind k _
  have hpermits := key.permits rfl Purpose.tag.check (by decide)
  rw [← hbytes] at hdata
  refine ((chosen_of_toProduce halg).bind_toCheck hg (Headers.map_eq hheaders)
    (by rw [hheaders]) _).trans ?_
  rw [if_neg hpermits, authenticated_eq hresolve hdata, ← hcheck]
  rfl

end Tagging

theorem Mac0.verify_of_create {p : Provider} {key : MacKey} {protectedMap unprotected : LabelMap}
    {payload : Bytes} {o : Options} {calls : List Call} {m : Mac0}
    (h : Mac0.create p key protectedMap unprotected payload o = ⟨calls, .ok m⟩)
    (fits : m.encode.length < 2 ^ 64) :
    ∃ call, calls = [call] ∧ ∀ arrived, Received (k := .mac0) m arrived →
      Tagging.Agrees p key.key o.algorithm m.protectedHeader.map call fun given =>
        Mac0.verify p key arrived { o with algorithm := given } := by
  obtain ⟨front, ⟨header, tag⟩, rest, hcreate, hrest, rfl⟩ := Session.bind_eq_ok h
  obtain ⟨hbuild, rfl⟩ := Session.ofExcept_eq_ok hrest
  obtain ⟨call, recorded, rfl, rfl, agrees⟩ := Tagging.agrees_of_create hcreate
  obtain ⟨hheaders, hpayload, htoken⟩ := Draft.build_mac0 hbuild
  obtain rfl : tag = m.tag := Option.some.inj htoken
  refine ⟨call, rfl, ?_⟩
  intro arrived hr
  obtain ⟨harrived, heq⟩ := Received.arrival (k := .mac0) (P := (· = m)) hr rfl hheaders
    fits rfl (fun hf => Mac0.gives_read hf fits)
  subst harrived
  exact agrees heq hpayload

theorem Mac.verify_of_create {p : Provider} {key : MacKey} {protectedMap unprotected : LabelMap}
    {payload : Bytes} {recipients : List Recipient} {o : Options} {calls : List Call} {m : Mac}
    (h : Mac.create p key protectedMap unprotected payload recipients o = ⟨calls, .ok m⟩)
    (fits : m.encode.length < 2 ^ 64) :
    ∃ call, calls = [call] ∧ ∀ arrived, Received (k := .mac) m arrived →
      Tagging.Agrees p key.key o.algorithm m.protectedHeader.map call fun given =>
        Mac.verify p key arrived { o with algorithm := given } := by
  obtain ⟨⟨⟩, -, h⟩ := Session.bind_mapError_eq_ok h
  obtain ⟨front, ⟨header, tag⟩, rest, hcreate, hrest, rfl⟩ := Session.bind_eq_ok h
  obtain ⟨hbuild, rfl⟩ := Session.ofExcept_eq_ok hrest
  obtain ⟨call, recorded, rfl, rfl, agrees⟩ := Tagging.agrees_of_create hcreate
  obtain ⟨hheaders, hpayload, htoken, -⟩ := Draft.build_mac hbuild
  obtain rfl : tag = m.tag := Option.some.inj htoken
  refine ⟨call, rfl, ?_⟩
  intro arrived hr
  obtain ⟨⟨rs, rfl⟩, heq⟩ := Received.arrival (k := .mac)
    (P := fun n => ∃ rs, n = { m with recipients := rs }) hr rfl hheaders fits
    ⟨m.recipients, rfl⟩ (fun hf => Mac.gives_read hf fits _)
  exact agrees heq hpayload

/-- Whatever is signed or tagged is verified as the provider decides about its own answer, whether
it is taken as it was made or as it is read from its encoding. Messages longer than a head can
announce are left out. -/
theorem verification_agrees (p : Provider) (protectedMap unprotected : LabelMap) (payload : Bytes)
    (o : Options) :
    (∀ (key : SigningKey) (m : Sign1),
      (Sign1.sign p key protectedMap unprotected payload o).outcome = .ok m →
      m.encode.length < 2 ^ 64 →
      ∃ call, (Sign1.sign p key protectedMap unprotected payload o).calls = [call] ∧
        ∀ arrived, Received (k := .sign1) m arrived →
          Signing.Agrees p key.key o.algorithm m.protectedHeader.map call fun given =>
            Sign1.verify p key arrived { o with algorithm := given }) ∧
    (∀ (signers : List Signer) (m : Sign),
      (Sign.sign p protectedMap unprotected payload signers o).outcome = .ok m →
      m.encode.length < 2 ^ 64 →
      (Sign.sign p protectedMap unprotected payload signers o).calls.length = signers.length ∧
      m.signatures.length = signers.length ∧
      ∀ (i : Nat) (s : Signer), signers[i]? = some s → ∃ signature call,
        m.signatures[i]? = some signature ∧
        (Sign.sign p protectedMap unprotected payload signers o).calls[i]? = some call ∧
        ∀ arrived, Received (k := .sign) m arrived →
          Signing.Agrees p s.key.key (s.algorithm <|> o.algorithm) signature.protectedHeader.map call
            fun given => Sign.verify p s.key arrived i { o with algorithm := given }) ∧
    (∀ (key : MacKey) (m : Mac0),
      (Mac0.create p key protectedMap unprotected payload o).outcome = .ok m →
      m.encode.length < 2 ^ 64 →
      ∃ call, (Mac0.create p key protectedMap unprotected payload o).calls = [call] ∧
        ∀ arrived, Received (k := .mac0) m arrived →
          Tagging.Agrees p key.key o.algorithm m.protectedHeader.map call fun given =>
            Mac0.verify p key arrived { o with algorithm := given }) ∧
    (∀ (key : MacKey) (recipients : List Recipient) (m : Mac),
      (Mac.create p key protectedMap unprotected payload recipients o).outcome = .ok m →
      m.encode.length < 2 ^ 64 →
      ∃ call, (Mac.create p key protectedMap unprotected payload recipients o).calls = [call] ∧
        ∀ arrived, Received (k := .mac) m arrived →
          Tagging.Agrees p key.key o.algorithm m.protectedHeader.map call fun given =>
            Mac.verify p key arrived { o with algorithm := given }) := by
  refine ⟨?_, ?_, ?_, ?_⟩
  · intro key m h fits
    exact Sign1.verify_of_sign (Session.eq_of_outcome h) fits
  · intro signers m h fits
    exact Sign.verify_of_sign (Session.eq_of_outcome h) fits
  · intro key m h fits
    exact Mac0.verify_of_create (Session.eq_of_outcome h) fits
  · intro key recipients m h fits
    exact Mac.verify_of_create (Session.eq_of_outcome h) fits

/-- A provider that exchanges signatures as sequences and accepts all of them. -/
def Provider.accepting : Provider where
  form := .der
  reply
    | .sign .. => .ok [0x30, 0x06, 0x02, 0x01, 0x01, 0x02, 0x01, 0x02]
    | .mac .. => .ok [0xa5]
    | .verify .. | .macVerify .. => .ok ()
    | .derivePublic .. => .ok ⟨[0x01], some [0x02]⟩
    | _ => .error (.provider "no answer")

theorem Key.check_private :
    (Key.Material.ec2 .p256 none none (some (List.replicate 32 0x07))).check = .ok () := rfl

/-- A signing key that carries its private part only. -/
def SigningKey.privateOnly : SigningKey where
  key :=
    { keyId := none, algorithm := none, operations := [], baseIv := none,
      material := .ec2 .p256 none none (some (List.replicate 32 0x07)), extra := .empty,
      sound := Key.check_private, unreserved := fun _ h => nomatch h }
  fits := rfl

/-- A key for tags that is restricted to one algorithm. -/
def MacKey.restricted : MacKey where
  key :=
    { keyId := none, algorithm := some Algorithm.hmac256.id, operations := [], baseIv := none,
      material := .symmetric [0x2a], extra := .empty, sound := rfl,
      unreserved := fun _ h => nomatch h }
  fits := rfl

theorem verification_agrees_accepting :
    (∃ (m : Sign1) (call : Call),
      (Sign1.sign .accepting .privateOnly .empty .empty [0x05]
        { algorithm := some .es256 }).outcome = .ok m ∧
      Signing.Agrees .accepting SigningKey.privateOnly.key (some .es256) m.protectedHeader.map call
        fun given => Sign1.verify .accepting .privateOnly m { algorithm := given }) ∧
    (∃ (m : Sign) (signature : Signature) (call : Call),
      (Sign.sign .accepting .empty .empty [0x05]
        [{ key := .privateOnly }, { key := .privateOnly, algorithm := some .es256 }]
        { algorithm := some .es256 }).outcome = .ok m ∧ m.signatures[1]? = some signature ∧
      Signing.Agrees .accepting SigningKey.privateOnly.key (some .es256)
        signature.protectedHeader.map call
        fun given => Sign.verify .accepting .privateOnly m 1 { algorithm := given }) ∧
    (∃ (m : Mac0) (call : Call),
      (Mac0.create .accepting .restricted .empty .empty [] { detached := some [0x05] }).outcome =
        .ok m ∧
      Tagging.Agrees .accepting MacKey.restricted.key none m.protectedHeader.map call
        fun given =>
          Mac0.verify .accepting .restricted m { algorithm := given, detached := some [0x05] }) ∧
    (∃ (m : Mac) (call : Call),
      (Mac.create .accepting .restricted .empty .empty [] [.direct [0x2a]]
        { detached := some [0x05] }).outcome = .ok m ∧
      Tagging.Agrees .accepting MacKey.restricted.key none m.protectedHeader.map call
        fun given =>
          Mac.verify .accepting .restricted m { algorithm := given, detached := some [0x05] }) := by
  have h := verification_agrees .accepting .empty .empty [0x05] { algorithm := some .es256 }
  have h' := verification_agrees .accepting .empty .empty [] { detached := some [0x05] }
  obtain ⟨sign1, -, hsign1⟩ := h.1 .privateOnly _ rfl (by decide +kernel)
  obtain ⟨-, -, hall⟩ := h.2.1
    [{ key := .privateOnly }, { key := .privateOnly, algorithm := some .es256 }] _ rfl
    (by decide +kernel)
  obtain ⟨signature, sign, hsignature, -, hsign⟩ := hall 1 _ rfl
  obtain ⟨mac0, -, hmac0⟩ := h'.2.2.1 .restricted _ rfl (by decide +kernel)
  obtain ⟨mac, -, hmac⟩ := h'.2.2.2 .restricted [.direct [0x2a]] _ rfl (by decide +kernel)
  refine ⟨⟨_, sign1, rfl, ?_⟩, ⟨_, signature, sign, rfl, hsignature, ?_⟩, ⟨_, mac0, rfl, ?_⟩,
    _, mac, rfl, ?_⟩
  · exact hsign1 _ (.inl rfl)
  · exact hsign _ (.inl rfl)
  · exact hmac0 _ (.inl rfl)
  · exact hmac _ (.inl rfl)

end Cose
