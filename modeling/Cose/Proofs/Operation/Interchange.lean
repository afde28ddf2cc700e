import Cose.Operation.Signing
import Cose.Proofs.Ecdsa.Sequence
import Cose.Proofs.Operation.Verification
import Cose.Provider.Software

namespace Cose

namespace Algorithm

/-- An algorithm for curves of prime order is for one of them, and its signatures are two numbers in
the length of its field. -/
theorem exists_primeCurve {alg : Algorithm} (h : alg.family = .ecdsa) :
    ∃ c : PrimeCurve, alg.spec.curves = [c.curve] ∧ alg.fieldLength = some c.fieldLength := by
  cases alg with
  | es256 => exact ⟨.p256, rfl, rfl⟩
  | es384 => exact ⟨.p384, rfl, rfl⟩
  | es512 => exact ⟨.p521, rfl, rfl⟩
  | _ => exact absurd h (by decide)

theorem fieldLength_eq_none {alg : Algorithm} (h : alg.family ≠ .ecdsa) :
    alg.fieldLength = none := by
  unfold fieldLength
  split
  next hf => exact absurd hf h
  next => rfl

/-- No other signatures are made on a curve of prime order. -/
theorem ecdsa_of_curve {alg : Algorithm} {c : PrimeCurve}
    (h : alg.family ∈ Purpose.signature.families) (hc : c.curve ∈ alg.spec.curves) :
    alg.family = .ecdsa := by
  revert h hc
  cases alg <;> cases c <;> decide

end Algorithm

theorem PrimeCurve.ofCurve?_curve (c : PrimeCurve) : ofCurve? c.curve = some c := by
  cases c <;> rfl

namespace Software

variable {alg : Algorithm} {c : PrimeCurve}

/-- A signature before it is written in any form. -/
def signature (c : PrimeCurve) (d data : Bytes) : Except CryptoError (Ecdsa.Signature c) := do
  let k ← scalar c .signature d
  orFail (.provider (c.curve.name ++ " signing failed: signature error")) (Ecdsa.sign? c k data)

theorem sign_eq_map (h : alg.family = .ecdsa) (form : Ecdsa.Form) (d data : Bytes) :
    sign form alg c.curve d data = (signature c d data).map (Ecdsa.Signature.write form) := by
  rw [sign, h, signature, c.ofCurve?_curve]
  show (scalar c .signature d >>= _) = Except.map _ (scalar c .signature d >>= _)
  cases scalar c .signature d with
  | error => rfl
  | ok k =>
    show (orFail _ (Ecdsa.sign? c k data) >>= _) = Except.map _ (orFail _ (Ecdsa.sign? c k data))
    cases Ecdsa.sign? c k data <;> rfl

theorem sign_eq_of_not_ecdsa (h : alg.family ≠ .ecdsa) (form form' : Ecdsa.Form) (curve : Curve)
    (d data : Bytes) : sign form alg curve d data = sign form' alg curve d data := by
  unfold sign
  split
  next hf => exact absurd hf h
  next => rfl
  next => rfl

/-- A form is read, and all that is decided after that is decided about the signature. -/
theorem verify_eq_ok_iff (h : alg.family = .ecdsa) {key : PublicKey} (on : key.curve = c.curve)
    (form : Ecdsa.Form) (data bs : Bytes) : verify form alg key data bs = .ok () ↔
      ∃ q sig, point c .signature key.toPublicPoint = .ok q ∧
        Ecdsa.Signature.read? form c bs = some sig ∧ Ecdsa.verify q data sig = true := by
  rw [verify, h, on, c.ofCurve?_curve]
  show (point c .signature key.toPublicPoint >>= _) = _ ↔ _
  cases point c .signature key.toPublicPoint with
  | error => simp [bind, Except.bind]
  | ok q =>
    show (orFail _ (Ecdsa.Signature.read? form c bs) >>= _) = _ ↔ _
    cases Ecdsa.Signature.read? form c bs with
    | none => simp [orFail, bind, Except.bind]
    | some sig =>
      cases hverify : Ecdsa.verify q data sig <;>
        simp [orFail, bind, Except.bind, pure, Except.pure, hverify]

theorem verify_eq_of_not_ecdsa (h : alg.family ≠ .ecdsa) (form form' : Ecdsa.Form)
    (key : PublicKey) (data bs : Bytes) :
    verify form alg key data bs = verify form' alg key data bs := by
  unfold verify
  split
  next hf => exact absurd hf h
  next => rfl
  next => rfl

end Software

theorem Key.Suits.curve_eq {key : Key} {alg : Algorithm} {c : PrimeCurve} {curve : Curve}
    (suits : key.Suits alg) (hc : alg.spec.curves = [c.curve]) (on : key.curve? = some curve) :
    curve = c.curve := by
  have hmem := suits.curve curve on
  rw [hc] at hmem
  exact List.mem_singleton.mp hmem

namespace Signing

variable {key : Key} {alg : Algorithm}

/-- Signatures are made alike, whichever form the provider gives them in. -/
theorem create_eq (suits : key.Suits alg) (source source' : Nat → Bytes) (data : Bytes) :
    create (Software.provider .fixed source) key alg data =
      create (Software.provider .der source') key alg data := by
  rw [create, create]
  cases hcurve : key.requiredCurve with
  | error => rfl
  | ok curve =>
    cases Key.required "d" key.material.d? with
    | error => rfl
    | ok d =>
      refine (Session.ok_bind curve _).trans (Eq.trans ?_ (Session.ok_bind curve _).symm)
      refine (Session.ok_bind d _).trans (Eq.trans ?_ (Session.ok_bind d _).symm)
      have hask (form : Ecdsa.Form) (source : Nat → Bytes) :
          Session.ask (Software.provider form source) (.sign alg curve d data) =
            ⟨[.sign alg curve d data], (Software.sign form alg curve d data).mapError .crypto⟩ :=
        rfl
      rw [hask, hask]
      by_cases hf : alg.family = .ecdsa
      · obtain ⟨c, hcurves, hlength⟩ := Algorithm.exists_primeCurve hf
        obtain rfl := suits.curve_eq hcurves (Key.requiredCurve_eq_ok_iff.mp hcurve)
        have hder : conversion (Software.provider .der source') alg = some c.fieldLength := hlength
        rw [hder, Software.sign_eq_map hf, Software.sign_eq_map hf]
        cases Software.signature c d data with
        | error => rfl
        | ok sig =>
          refine Session.ext rfl ?_
          show Except.ok sig.toFixed =
            ((Ecdsa.fixedOfDer sig.toDer c.fieldLength).mapError _).mapError _
          rw [Ecdsa.fixedOfDer_toDer]
          rfl
      · have hder : conversion (Software.provider .der source') alg = none :=
          Algorithm.fieldLength_eq_none hf
        rw [hder, Software.sign_eq_of_not_ecdsa hf .fixed .der]
        rfl

/-- A provider accepts a signature that is brought into its form. -/
def Accepts (p : Provider) (alg : Algorithm) (key : PublicKey) (data bs : Bytes) : Prop :=
  match conversion p alg with
  | some length => ∃ der, Ecdsa.derOfFixed bs length = .ok der ∧
      p.reply (.verify alg key data der) = .ok ()
  | none => p.reply (.verify alg key data bs) = .ok ()

theorem presented_eq_ok_iff {p : Provider} {pub : PublicKey} {data bs : Bytes} :
    (match conversion p alg with
      | some length => (liftM (Ecdsa.derOfFixed bs length) : Session Bytes) >>= fun given =>
          Session.ask p (.verify alg pub data given)
      | none => pure bs >>= fun given =>
          Session.ask p (.verify alg pub data given)).outcome = .ok () ↔
      Accepts p alg pub data bs := by
  rw [Accepts]
  cases conversion p alg with
  | none => exact Session.outcome_ask_eq_ok_iff
  | some length =>
    dsimp only
    cases Ecdsa.derOfFixed bs length with
    | error e =>
      constructor
      · intro h
        cases h
      · intro h
        obtain ⟨der, hder, -⟩ := h
        cases hder
    | ok der =>
      have hask : (Session.ask p (.verify alg pub data der)).outcome = .ok () ↔
          p.reply (.verify alg pub data der) = .ok () := Session.outcome_ask_eq_ok_iff
      refine hask.trans ?_
      simp

theorem check_eq_ok_iff {p : Provider} {data bs : Bytes} :
    (check p key alg data bs).outcome = .ok () ↔ ∃ curve, key.curve? = some curve ∧
      ∃ point, (key.publicPoint p curve "d").outcome = .ok point ∧
        Accepts p alg { point with curve } data bs := by
  refine Session.outcome_bind_mapError_eq_ok_iff.trans (exists_congr fun curve => ?_)
  refine and_congr Key.requiredCurve_eq_ok_iff ?_
  refine Session.outcome_bind_eq_ok_iff.trans (exists_congr fun point => ?_)
  exact and_congr Iff.rfl presented_eq_ok_iff

/-- Signatures are accepted alike, whichever form the provider takes them in. -/
theorem check_eq_ok_iff_of_suits (suits : key.Suits alg) (source source' : Nat → Bytes)
    (data bs : Bytes) :
    (check (Software.provider .fixed source) key alg data bs).outcome = .ok () ↔
      (check (Software.provider .der source') key alg data bs).outcome = .ok () := by
  rw [check_eq_ok_iff, check_eq_ok_iff]
  refine exists_congr fun curve => and_congr_right fun on => exists_congr fun point =>
    and_congr Iff.rfl ?_
  by_cases hf : alg.family = .ecdsa
  · obtain ⟨c, hcurves, hlength⟩ := Algorithm.exists_primeCurve hf
    obtain rfl := suits.curve_eq hcurves on
    have hder : conversion (Software.provider .der source') alg = some c.fieldLength := hlength
    have on' : ({ point with curve := c.curve } : PublicKey).curve = c.curve := rfl
    have hverify (form : Ecdsa.Form) := Software.verify_eq_ok_iff hf on' form data
    simp only [Accepts, hder]
    constructor
    · intro h
      obtain ⟨q, sig, hq, hread, hverified⟩ := (hverify .fixed bs).mp h
      refine ⟨sig.toDer, Ecdsa.derOfFixed_eq_ok_iff.mpr ⟨sig, hread, rfl⟩, ?_⟩
      exact (hverify .der sig.toDer).mpr ⟨q, sig, hq, sig.ofDer?_toDer, hverified⟩
    · intro h
      obtain ⟨der, hconverted, h⟩ := h
      obtain ⟨sig, hread, rfl⟩ := Ecdsa.derOfFixed_eq_ok_iff.mp hconverted
      obtain ⟨q, sig', hq, hread', hverified⟩ := (hverify .der sig.toDer).mp h
      obtain rfl : sig = sig' := Option.some.inj (sig.ofDer?_toDer.symm.trans hread')
      exact (hverify .fixed bs).mpr ⟨q, sig, hq, hread, hverified⟩
  · have hder : conversion (Software.provider .der source') alg = none :=
      Algorithm.fieldLength_eq_none hf
    have hsame := Software.verify_eq_of_not_ecdsa hf .fixed .der { point with curve } data bs
    simp only [Accepts, hder]
    exact iff_of_eq (congrArg (· = Except.ok ()) hsame)

/-- Signatures on a curve of prime order travel in the length of two elements of its field. -/
theorem length_of_create {source : Nat → Bytes} {c : PrimeCurve} {data carried : Bytes}
    (hf : alg.family ∈ Purpose.signature.families) (suits : key.Suits alg)
    (on : key.curve? = some c.curve)
    (h : (create (Software.provider .fixed source) key alg data).outcome = .ok carried) :
    carried.length = 2 * c.fieldLength := by
  obtain ⟨curve, hcurve, h⟩ := Session.bind_mapError_eq_ok (Session.eq_of_outcome h)
  obtain ⟨d, hd, h⟩ := Session.bind_mapError_eq_ok h
  obtain ⟨front, given, rest, hask, hrest, -⟩ := Session.bind_eq_ok h
  obtain ⟨hreply, -⟩ := Session.ask_eq_ok hask
  obtain rfl : given = carried := by
    cases hrest
    rfl
  obtain rfl : curve = c.curve :=
    Option.some.inj ((Key.requiredCurve_eq_ok_iff.mp hcurve).symm.trans on)
  have hreply : Software.sign .fixed alg c.curve d data = .ok given := hreply
  rw [Software.sign_eq_map (Algorithm.ecdsa_of_curve hf (suits.curve c.curve on))] at hreply
  cases hsig : Software.signature c d data with
  | error e =>
    rw [hsig] at hreply
    cases hreply
  | ok sig =>
    rw [hsig] at hreply
    obtain rfl : sig.toFixed = given := Except.ok.inj hreply
    exact sig.length_toFixed

end Signing

open Selection

variable (source source' : Nat → Bytes)

theorem Sign1.verify_interchangeable (key : SigningKey) (m : Sign1) (o : Options) :
    (Sign1.verify (Software.provider .fixed source) key m o).outcome = .ok () ↔
      (Sign1.verify (Software.provider .der source') key m o).outcome = .ok () := by
  refine Session.outcome_bind_congr fun alg halg => Session.outcome_bind_congr fun data _ => ?_
  exact Signing.check_eq_ok_iff_of_suits (passed_of_toCheck halg).suits source source' data _

theorem Sign.verify_interchangeable (key : SigningKey) (m : Sign) (index : Nat) (o : Options) :
    (Sign.verify (Software.provider .fixed source) key m index o).outcome = .ok () ↔
      (Sign.verify (Software.provider .der source') key m index o).outcome = .ok () := by
  unfold Sign.verify
  split
  next => exact Iff.rfl
  next s hs =>
    refine Session.outcome_bind_congr fun alg halg => Session.outcome_bind_congr fun data _ => ?_
    exact Signing.check_eq_ok_iff_of_suits (passed_of_toCheck halg).suits source source' data _

theorem Sign1.sign_interchangeable (key : SigningKey) (protectedMap unprotected : LabelMap)
    (payload : Bytes) (o : Options) :
    Sign1.sign (Software.provider .fixed source) key protectedMap unprotected payload o =
      Sign1.sign (Software.provider .der source') key protectedMap unprotected payload o := by
  refine Session.bind_ofExcept_congr fun alg halg => Session.bind_ofExcept_congr fun content _ =>
    Session.bind_ofExcept_congr fun data _ => ?_
  rw [Signing.create_eq (toProduce_eq_ok halg).2.suits source source']

theorem Signer.sign_interchangeable (s : Signer) (body content : Bytes) (o : Options) :
    s.sign (Software.provider .fixed source) body content o =
      s.sign (Software.provider .der source') body content o := by
  refine Session.bind_ofExcept_congr fun alg halg => Session.bind_ofExcept_congr fun data _ => ?_
  rw [Signing.create_eq (toProduce_eq_ok halg).2.suits source source']

theorem Sign.sign_interchangeable (protectedMap unprotected : LabelMap) (payload : Bytes)
    (signers : List Signer) (o : Options) :
    Sign.sign (Software.provider .fixed source) protectedMap unprotected payload signers o =
      Sign.sign (Software.provider .der source') protectedMap unprotected payload signers o := by
  simp only [Sign.sign, Signer.sign_interchangeable source source']

/-- A signature by a key on a curve of prime order is two numbers in the length of its field. -/
def SigningKey.Sizes (key : SigningKey) (signature : Bytes) : Prop :=
  ∀ c : PrimeCurve, key.key.curve? = some c.curve → signature.length = 2 * c.fieldLength

variable {source}

theorem Sign1.sizes_of_sign {key : SigningKey} {protectedMap unprotected : LabelMap}
    {payload : Bytes} {o : Options} {m : Sign1}
    (h : (Sign1.sign (Software.provider .fixed source) key protectedMap unprotected payload
      o).outcome = .ok m) : key.Sizes m.signature := by
  obtain ⟨alg, halg, h⟩ := Session.bind_ofExcept_eq_ok (Session.eq_of_outcome h)
  obtain ⟨content, -, h⟩ := Session.bind_ofExcept_eq_ok h
  obtain ⟨data, -, h⟩ := Session.bind_ofExcept_eq_ok h
  obtain ⟨front, carried, rest, hcreate, hrest, -⟩ := Session.bind_eq_ok h
  obtain ⟨hbuild, -⟩ := Session.ofExcept_eq_ok hrest
  obtain ⟨-, -, htoken⟩ := Message.Draft.build_sign1 hbuild
  obtain rfl : carried = m.signature := Option.some.inj htoken
  have passed := (toProduce_eq_ok halg).2
  intro c on
  exact Signing.length_of_create passed.family passed.suits on (congrArg Session.outcome hcreate)

theorem Signer.sizes_of_sign {s : Signer} {body content : Bytes} {o : Options} {made : Signature}
    (h : (s.sign (Software.provider .fixed source) body content o).outcome = .ok made) :
    s.key.Sizes made.signature := by
  obtain ⟨alg, halg, h⟩ := Session.bind_ofExcept_eq_ok (Session.eq_of_outcome h)
  obtain ⟨data, -, h⟩ := Session.bind_ofExcept_eq_ok h
  obtain ⟨front, carried, rest, hcreate, hrest, -⟩ := Session.bind_eq_ok h
  obtain ⟨hbuild, -⟩ := Session.ofExcept_eq_ok hrest
  obtain ⟨-, htoken⟩ := Message.Draft.build_signature hbuild
  obtain rfl : carried = made.signature := Option.some.inj htoken
  have passed := (toProduce_eq_ok halg).2
  intro c on
  exact Signing.length_of_create passed.family passed.suits on (congrArg Session.outcome hcreate)

theorem Sign.sizes_of_sign {protectedMap unprotected : LabelMap} {payload : Bytes}
    {signers : List Signer} {o : Options} {m : Sign}
    (h : (Sign.sign (Software.provider .fixed source) protectedMap unprotected payload signers
      o).outcome = .ok m) :
    List.Forall₂ (fun s made => s.key.Sizes made.signature) signers m.signatures := by
  obtain ⟨⟨⟩, -, h⟩ := Session.bind_mapError_eq_ok (Session.eq_of_outcome h)
  obtain ⟨content, -, h⟩ := Session.bind_mapError_eq_ok h
  obtain ⟨front, signatures, rest, hmap, hrest, -⟩ := Session.bind_eq_ok h
  obtain ⟨hbuild, -⟩ := Session.ofExcept_eq_ok hrest
  obtain ⟨-, -, hparts, -⟩ := Message.Draft.build_sign hbuild
  obtain rfl : signatures = m.signatures := hparts
  have hall := Session.outcome_mapM_eq_ok_iff.mp (congrArg Session.outcome hmap)
  exact hall.imp fun s made hs => Signer.sizes_of_sign hs

/-- A key on one of the curves on which signatures are made without randomness. -/
def SigningKey.Repeatable (key : SigningKey) : Prop :=
  key.key.curve? = some .p256 ∨ key.key.curve? = some .p384 ∨ key.key.curve? = some .ed25519

/-- Two providers that exchange signatures in different forms accept the same messages. They also
make the same messages, where no randomness enters into them, with signatures in fixed form. -/
theorem forms_interchangeable (source source' : Nat → Bytes) (o : Options) :
    (∀ (key : SigningKey) (m : Sign1),
      (Sign1.verify (Software.provider .fixed source) key m o).outcome = .ok () ↔
        (Sign1.verify (Software.provider .der source') key m o).outcome = .ok ()) ∧
    (∀ (key : SigningKey) (m : Sign) (index : Nat),
      (Sign.verify (Software.provider .fixed source) key m index o).outcome = .ok () ↔
        (Sign.verify (Software.provider .der source') key m index o).outcome = .ok ()) ∧
    ∀ (protectedMap unprotected : LabelMap) (payload : Bytes),
      (∀ key : SigningKey, key.Repeatable →
        let made := Sign1.sign (Software.provider .fixed source) key protectedMap unprotected payload o
        made = Sign1.sign (Software.provider .der source') key protectedMap unprotected payload o ∧
        ∀ m, made.outcome = .ok m → key.Sizes m.signature) ∧
      ∀ signers : List Signer, (∀ s ∈ signers, s.key.Repeatable) →
        let made := Sign.sign (Software.provider .fixed source) protectedMap unprotected payload
          signers o
        made = Sign.sign (Software.provider .der source') protectedMap unprotected payload
          signers o ∧
        ∀ m, made.outcome = .ok m →
          List.Forall₂ (fun s signature => s.key.Sizes signature.signature) signers m.signatures := by
  refine ⟨fun key m => Sign1.verify_interchangeable source source' key m o,
    fun key m index => Sign.verify_interchangeable source source' key m index o, ?_⟩
  intro protectedMap unprotected payload
  constructor
  · intro key _ made
    refine ⟨Sign1.sign_interchangeable source source' key protectedMap unprotected payload o, ?_⟩
    intro m h
    exact Sign1.sizes_of_sign h
  · intro signers _ made
    refine ⟨Sign.sign_interchangeable source source' protectedMap unprotected payload signers o, ?_⟩
    intro m h
    exact Sign.sizes_of_sign h

/-- A signing key for octets that carries its private part only. -/
def SigningKey.octet : SigningKey where
  key :=
    { keyId := none, algorithm := none, operations := [], baseIv := none,
      material := .okp .ed25519 none (some (List.replicate 32 0x07)), extra := .empty,
      sound := Key.privateOctet.sound, unreserved := Key.privateOctet.unreserved }
  fits := rfl

theorem forms_interchangeable_private :
    (∃ m, (Sign1.sign (Software.provider .fixed fun _ => []) .privateOnly .empty .empty [0x05]
        { algorithm := some .es256 }).outcome = .ok m ∧
      (Sign1.sign (Software.provider .der fun _ => []) .privateOnly .empty .empty [0x05]
        { algorithm := some .es256 }).outcome = .ok m ∧
      m.signature.length = 64) ∧
    ∃ m, (Sign.sign (Software.provider .der fun _ => []) .empty .empty [0x05]
        [{ key := .octet, algorithm := some .edDsa }] { algorithm := some .es256 }).outcome = .ok m ∧
      m.signatures.length = 1 := by
  obtain ⟨-, -, h⟩ := forms_interchangeable (fun _ => []) (fun _ => []) { algorithm := some .es256 }
  obtain ⟨hsign1, hsign⟩ := h .empty .empty [0x05]
  constructor
  · obtain ⟨heq, hsizes⟩ := hsign1 .privateOnly (.inl rfl)
    have hok : (Sign1.sign (Software.provider .fixed fun _ => []) .privateOnly .empty .empty [0x05]
        { algorithm := some .es256 }).outcome.isOk = true := by
      decide +kernel
    obtain ⟨m, hm⟩ := Session.exists_of_isOk hok
    exact ⟨m, hm, heq ▸ hm, hsizes m hm .p256 rfl⟩
  · obtain ⟨heq, hsizes⟩ := hsign [{ key := .octet, algorithm := some .edDsa }]
      (List.forall_mem_singleton.mpr (.inr (.inr rfl)))
    exact ⟨_, heq ▸ rfl, (hsizes _ rfl).length_eq.symm⟩

end Cose
