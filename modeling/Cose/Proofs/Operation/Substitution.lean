import Cose.Operation.Keys
import Cose.Proofs.Operation.Calls
import Cose.Proofs.Operation.Publication

namespace Cose

/-- The provider derives a y-coordinate exactly on the curves of prime order. -/
def Provider.Apt (p : Provider) : Prop :=
  ∀ curve d point, p.reply (.derivePublic curve d) = .ok point →
    (point.y.isSome ↔ curve.keyType = .ec2)

theorem Software.provider_apt (form : Ecdsa.Form) (source : Nat → Bytes) :
    (provider form source).Apt := by
  intro curve d point h
  have h : derivePublic curve d = .ok point := h
  unfold derivePublic at h
  split at h
  next c hc =>
    obtain ⟨k, -, h⟩ := eq_ok_of_bind h
    obtain ⟨⟨x, y⟩, -, h⟩ := eq_ok_of_bind h
    cases h
    obtain rfl : c.curve = curve := by simpa using List.find?_some hc
    cases c <;> simp [PrimeCurve.curve, Curve.keyType]
  next =>
    split at h
    next =>
      obtain ⟨bs, -, h⟩ := eq_ok_of_bind h
      cases h
      simp [Curve.keyType]
    next =>
      obtain ⟨bs, -, h⟩ := eq_ok_of_bind h
      cases h
      simp [Curve.keyType]
    next => cases h

namespace Session

variable {α β : Type} {front : List Call}

/-- Both computations come to the same, and both make the same calls, but that the first may have
made some others before. -/
structure Prepared (front : List Call) (s t : Session α) : Prop where
  outcome : s.outcome = t.outcome
  calls : s.calls = t.calls ∨ s.calls = front ++ t.calls

namespace Prepared

theorem refl (s : Session α) : Prepared front s s := ⟨rfl, .inl rfl⟩

/-- The preparation may come after a step that makes no call. -/
theorem bind_ofExcept {e : Except Error α} {f g : α → Session β}
    (h : ∀ a, e = .ok a → Prepared front (f a) (g a)) :
    Prepared front (ofExcept e >>= f) (ofExcept e >>= g) := by
  cases e with
  | error => exact .refl _
  | ok a =>
    rw [ok_bind, ok_bind]
    exact h a rfl

/-- Nothing that follows a value depends on the calls by which it was found. -/
theorem bind_of_ok {s t : Session α} {a : α} (hs : s = ⟨front, .ok a⟩) (ht : t = ⟨[], .ok a⟩)
    (f : α → Session β) : Prepared front (s >>= f) (t >>= f) := by
  subst hs ht
  exact ⟨rfl, .inr rfl⟩

end Prepared

end Session

namespace Key

variable {p : Provider} {key pub : Key} {curve : Curve} {front : List Call} {point : PublicPoint}

theorem PublicPart.whole (apt : p.Apt) (part : key.PublicPart p curve point) :
    point.y.isSome ↔ curve.keyType = .ec2 := by
  cases part with
  | carried own => exact own.whole
  | derived _ _ reply => exact apt _ _ _ reply

/-- A point that has a y-coordinate exactly on a curve of prime order is published as a whole. -/
theorem Material.WellFormed.y?_publish {m : Material} (h : m.WellFormed)
    (on : m.curve? = some curve) (whole : point.y.isSome ↔ curve.keyType = .ec2) :
    (m.publish point).y? = point.y := by
  cases h with
  | ec2 => rfl
  | okp type =>
    cases on
    have absent : point.y = none := by simpa [type] using whole
    exact absent.symm
  | symmetric => cases on

/-- The public part of a key is also that of the key that it is made public as. -/
theorem publicPoint_of_toPublic (apt : p.Apt) (h : key.toPublic p = ⟨front, .ok pub⟩)
    (missing : String) :
    ∃ curve point, key.curve? = some curve ∧ pub.curve? = some curve ∧
      key.publicPoint p curve missing = ⟨front, .ok point⟩ ∧
      pub.publicPoint p curve missing = ⟨[], .ok point⟩ := by
  obtain ⟨curve, point, on, hpoint, -, hmaterial⟩ := toPublic_eq_ok h
  have on' := (curve?_of_publish hmaterial).trans on
  have hx : pub.material.x? = some point.x := by
    rw [hmaterial, Material.x?_publish on]
  have part := publicPart_of_publicPoint on (congrArg Session.outcome hpoint)
  have hy : pub.material.y? = point.y := by
    rw [hmaterial, key.wellFormed.material.y?_publish on (part.whole apt)]
  refine ⟨curve, point, on, on', (publicPoint_eq on p missing _).trans hpoint, ?_⟩
  rw [publicPoint_of_x? hx, hy]
  rfl

/-- A key that is made public is, but for its parts, the same key to the checks. -/
structure Passes (key other : Key) : Prop where
  keyType : key.keyType = other.keyType
  curve : key.curve? = other.curve?
  k : key.material.k? = other.material.k?
  algorithm : key.algorithm = other.algorithm
  operations : key.operations = other.operations

theorem passes_of_toPublic (h : key.toPublic p = ⟨front, .ok pub⟩) : pub.Passes key := by
  obtain ⟨-, point, -, -, hcommon, hmaterial⟩ := toPublic_eq_ok h
  refine ⟨keyType_of_publish hmaterial, curve?_of_publish hmaterial, ?_, hcommon.algorithm,
    hcommon.operations⟩
  rw [hmaterial, Material.k?_publish]

namespace Passes

variable {other : Key}

theorem checkUsage (h : key.Passes other) (usage : KeyUsage) :
    key.checkUsage usage = other.checkUsage usage := by
  rw [Key.checkUsage, Key.checkUsage, h.keyType, h.curve, h.operations]

theorem checkFor (h : key.Passes other) (alg : Algorithm) (op : KeyOperation) :
    key.checkFor alg op = other.checkFor alg op := by
  rw [Key.checkFor, Key.checkFor, checkDeclared, checkDeclared, checkSuited, checkSuited, misfit?,
    misfit?, checkOperation, checkOperation, h.keyType, h.curve, h.k, h.algorithm, h.operations]

theorem toCheck (h : key.Passes other) (purpose : Purpose) (explicit : Option Algorithm)
    (headers : Headers) : Selection.toCheck purpose explicit headers key =
      Selection.toCheck purpose explicit headers other := by
  simp only [Selection.toCheck, Selection.idToCheck, Selection.checkKey, h.checkFor, h.algorithm]

end Passes

end Key

variable {p : Provider} {key pub : Key} {front : List Call}

/-- A signature is checked with the same point, which is asked for if the key does not carry it. -/
theorem Signing.prepared_check (apt : p.Apt) (h : key.toPublic p = ⟨front, .ok pub⟩)
    (alg : Algorithm) (data signature : Bytes) :
    Session.Prepared front (check p key alg data signature) (check p pub alg data signature) := by
  obtain ⟨curve, point, on, on', hpoint, hpoint'⟩ := Key.publicPoint_of_toPublic apt h "d"
  rw [check, check, Key.requiredCurve_eq_ok_iff.mpr on, Key.requiredCurve_eq_ok_iff.mpr on']
  refine .bind_ofExcept fun c hc => ?_
  cases hc
  exact .bind_of_ok hpoint hpoint' _

theorem Sign1.prepared_verify (apt : p.Apt) (h : key.toPublic p = ⟨front, .ok pub⟩)
    (fits : key.checkUsage .signing = .ok ()) (fits' : pub.checkUsage .signing = .ok ())
    (m : Sign1) (o : Options) :
    Session.Prepared front (verify p ⟨key, fits⟩ m o) (verify p ⟨pub, fits'⟩ m o) := by
  rw [verify, verify, (Key.passes_of_toPublic h).toCheck]
  refine .bind_ofExcept fun alg _ => .bind_ofExcept fun data _ => ?_
  exact Signing.prepared_check apt h alg data m.signature

theorem Sign.prepared_verify (apt : p.Apt) (h : key.toPublic p = ⟨front, .ok pub⟩)
    (fits : key.checkUsage .signing = .ok ()) (fits' : pub.checkUsage .signing = .ok ())
    (m : Sign) (index : Nat) (o : Options) :
    Session.Prepared front (verify p ⟨key, fits⟩ m index o) (verify p ⟨pub, fits'⟩ m index o) := by
  rw [verify, verify]
  cases m.signatures[index]? with
  | none => exact .refl _
  | some s =>
    dsimp only
    rw [(Key.passes_of_toPublic h).toCheck]
    refine .bind_ofExcept fun alg _ => .bind_ofExcept fun data _ => ?_
    exact Signing.prepared_check apt h alg data s.signature

/-- Two keys agree with the same point, on the curve that they have in common. -/
theorem Key.prepared_agree (apt : p.Apt) (h : key.toPublic p = ⟨front, .ok pub⟩)
    (fits : key.checkUsage .keyAgreement = .ok ()) (fits' : pub.checkUsage .keyAgreement = .ok ())
    (mine : AgreementKey) :
    Session.Prepared front (agree p mine ⟨key, fits⟩) (agree p mine ⟨pub, fits'⟩) := by
  obtain ⟨curve, point, on, on', hpoint, hpoint'⟩ := publicPoint_of_toPublic apt h "d"
  rw [agree, agree, requiredCurve_eq_ok_iff.mpr on, requiredCurve_eq_ok_iff.mpr on']
  refine .bind_ofExcept fun c _ => .bind_ofExcept fun other hother => ?_
  cases hother
  -- A point is only asked for where both keys lie on one curve, so only there do the two differ.
  by_cases hsame : c = curve
  · subst hsame
    rw [if_pos rfl, if_pos rfl]
    refine .bind_ofExcept fun d _ => ?_
    exact .bind_of_ok hpoint hpoint' _
  · rw [if_neg hsame, if_neg hsame]
    exact .bind_ofExcept fun _ h => nomatch h

/-- Whoever has a key can work with the key that it is made public as instead: it serves the same
usages, accepts the same messages and agrees on the same secrets, also where they fail. All that the
key itself asks of the provider besides is its public part, in the same way as when it is made
public. -/
theorem public_key_stands_in (apt : p.Apt) (h : (key.toPublic p).outcome = .ok pub) :
    (∀ fits : key.checkUsage .signing = .ok (), ∃ fits' : pub.checkUsage .signing = .ok (),
      (∀ (m : Sign1) (o : Options), Session.Prepared (key.toPublic p).calls
        (Sign1.verify p ⟨key, fits⟩ m o) (Sign1.verify p ⟨pub, fits'⟩ m o)) ∧
      ∀ (m : Sign) (index : Nat) (o : Options), Session.Prepared (key.toPublic p).calls
        (Sign.verify p ⟨key, fits⟩ m index o) (Sign.verify p ⟨pub, fits'⟩ m index o)) ∧
    ∀ fits : key.checkUsage .keyAgreement = .ok (),
      ∃ fits' : pub.checkUsage .keyAgreement = .ok (), ∀ mine : AgreementKey,
        Session.Prepared (key.toPublic p).calls (Key.agree p mine ⟨key, fits⟩)
          (Key.agree p mine ⟨pub, fits'⟩) := by
  have made := Session.eq_of_outcome h
  have passes := Key.passes_of_toPublic made
  constructor
  · intro fits
    have fits' := (passes.checkUsage .signing).trans fits
    exact ⟨fits', Sign1.prepared_verify apt made fits fits',
      Sign.prepared_verify apt made fits fits'⟩
  · intro fits
    have fits' := (passes.checkUsage .keyAgreement).trans fits
    exact ⟨fits', Key.prepared_agree apt made fits fits'⟩

/-- The key for signatures serves key agreement just as well. -/
def AgreementKey.privateOnly : AgreementKey := ⟨SigningKey.privateOnly.key, rfl⟩

theorem public_key_stands_in_software :
    let p := Software.provider .fixed fun _ => []
    ∃ pub, (SigningKey.privateOnly.key.toPublic p).outcome = .ok pub ∧
      (∃ signer : SigningKey, signer.key = pub ∧ ∀ m o,
        (Sign1.verify p .privateOnly m o).outcome = (Sign1.verify p signer m o).outcome) ∧
      ∃ peer : AgreementKey, peer.key = pub ∧ ∀ mine,
        (Key.agree p mine .privateOnly).outcome = (Key.agree p mine peer).outcome := by
  intro p
  have hok : (SigningKey.privateOnly.key.toPublic p).outcome.isOk = true := by
    decide +kernel
  obtain ⟨pub, hpub⟩ := Session.exists_of_isOk hok
  obtain ⟨signing, agreement⟩ := public_key_stands_in (Software.provider_apt _ _) hpub
  obtain ⟨fits, hverify, -⟩ := signing SigningKey.privateOnly.fits
  obtain ⟨fits', hagree⟩ := agreement AgreementKey.privateOnly.fits
  refine ⟨pub, hpub, ⟨⟨pub, fits⟩, rfl, ?_⟩, ⟨pub, fits'⟩, rfl, ?_⟩
  · intro m o
    exact (hverify m o).outcome
  · intro mine
    exact (hagree mine).outcome

end Cose
