import Cose.Crypto.Curve25519
import Cose.Crypto.Gcm
import Cose.Ecdsa.Scheme
import Cose.Provider

namespace Cose.Software

def orFail {α : Type} (e : CryptoError) : Option α → Except CryptoError α
  | some a => .ok a
  | none => .error e

/-- Bytes that must be 32 in number. -/
def octets32 (what : String) (bs : Bytes) : Except CryptoError Bytes :=
  if bs.length = 32 then .ok bs else .error (.invalidKey (.octetLength what bs.length))

/-- The scalar of a private key on a curve of prime order. -/
def scalar (c : PrimeCurve) (use : PointUse) (d : Bytes) : Except CryptoError Nat :=
  orFail (.invalidKey (.privateScalar c.curve use)) (c.scalar? d)

/-- The point of a public key on a curve of prime order. -/
def point (c : PrimeCurve) (use : PointUse) (key : PublicPoint) :
    Except CryptoError c.Point := do
  let y ← orFail (.invalidKey .missingY) key.y
  orFail (.invalidKey (.publicPoint c.curve use)) (c.point? (key.x ++ y))

/-- The failure of a computation that can only fail by reaching the neutral element. -/
def neutral (c : PrimeCurve) : CryptoError :=
  .provider (c.curve.name ++ " point at infinity")

def sign (form : Ecdsa.Form) (alg : Algorithm) (curve : Curve) (d data : Bytes) :
    Except CryptoError Bytes := do
  match alg.family with
  | .ecdsa =>
    let c ← orFail (.unsupportedCurve curve) (PrimeCurve.ofCurve? curve)
    let k ← scalar c .signature d
    let sig ← orFail (.provider (c.curve.name ++ " signing failed: signature error"))
      (Ecdsa.sign? c k data)
    return sig.write form
  | .edDsa =>
    if curve = .ed25519 then
      return Curve25519.sign (← octets32 "Ed25519 private key" d) data
    else throw (.unsupportedCurve curve)
  | _ => throw (.unsupportedAlgorithm alg)

def verify (form : Ecdsa.Form) (alg : Algorithm) (key : PublicKey) (data signature : Bytes) :
    Except CryptoError Unit := do
  match alg.family with
  | .ecdsa =>
    let c ← orFail (.unsupportedCurve key.curve) (PrimeCurve.ofCurve? key.curve)
    let q ← point c .signature key.toPublicPoint
    let sig ← orFail (.invalidSignature (.malformed key.curve))
      (Ecdsa.Signature.read? form c signature)
    unless Ecdsa.verify q data sig do
      throw .verificationFailed
  | .edDsa =>
    if key.curve = .ed25519 then
      let x ← octets32 "Ed25519 public key" key.x
      let q ← orFail (.invalidKey .undecodablePoint) (Curve25519.Point.decode? x)
      unless signature.length = 64 do
        throw (.invalidSignature (.malformed key.curve))
      unless Curve25519.verify x q data signature do
        throw .verificationFailed
    else throw (.unsupportedCurve key.curve)
  | _ => throw (.unsupportedAlgorithm alg)

/-- The tag of data, cut to the algorithm's length. -/
def mac (alg : Algorithm) (key data : Bytes) : Except CryptoError Bytes := do
  let hash ← orFail (.unsupportedAlgorithm alg) alg.spec.hash
  let tag := hash.hmac key data
  return tag.take (alg.spec.outputLength.getD tag.length)

def macVerify (alg : Algorithm) (key data tag : Bytes) : Except CryptoError Unit := do
  unless (← mac alg key data) = tag do
    throw .verificationFailed

/-- The parameters of an authenticated cipher must have the right lengths. -/
def checkCipher (alg : Algorithm) (key iv : Bytes) : Except CryptoError Unit := do
  unless alg.family = .aesGcm do
    throw (.unsupportedAlgorithm alg)
  unless iv.length = 12 do
    throw (.invalidIv 12 iv.length)
  unless some key.length = alg.spec.keyLength do
    throw (.invalidKey (.cipherKeyLength alg key.length))

def encrypt (alg : Algorithm) (key iv aad plaintext : Bytes) : Except CryptoError Bytes := do
  checkCipher alg key iv
  return Gcm.encrypt key iv aad plaintext

def decrypt (alg : Algorithm) (key iv aad ciphertext : Bytes) : Except CryptoError Bytes := do
  checkCipher alg key iv
  orFail .decryptionFailed (Gcm.decrypt? key iv aad ciphertext)

def agree (d : Bytes) (peer : PublicKey) : Except CryptoError Bytes :=
  match PrimeCurve.ofCurve? peer.curve with
  | some c => do
    let k ← scalar c .agreement d
    let q ← point c .agreement peer.toPublicPoint
    orFail (neutral c) (c.sharedSecret? k q)
  | none => do
    unless peer.curve = .x25519 do
      throw (.unsupportedCurve peer.curve)
    let secret ← octets32 "X25519 private key" d
    let shared := Curve25519.agree secret (← octets32 "X25519 public key" peer.x)
    if shared.all (· == 0) then
      throw (.invalidKey .lowOrderPoint)
    return shared

def derivePublic (curve : Curve) (d : Bytes) : Except CryptoError PublicPoint :=
  match PrimeCurve.ofCurve? curve with
  | some c => do
    let (x, y) ← orFail (neutral c) (c.publicPoint? (← scalar c .agreement d))
    return ⟨x, some y⟩
  | none =>
    match curve with
    | .ed25519 => do return ⟨Curve25519.publicKey (← octets32 "Ed25519 private key" d), none⟩
    | .x25519 => do
      return ⟨Curve25519.agree (← octets32 "X25519 private key" d) Curve25519.basePoint, none⟩
    | _ => .error (.unsupportedCurve curve)

/-- A private key made of random bytes; a scalar is taken from some bytes more than it has itself,
so that no value is favoured. -/
def privateKey (source : Nat → Bytes) (curve : Curve) : Bytes :=
  match PrimeCurve.ofCurve? curve with
  | some c =>
    Bytes.ofNat c.fieldLength (1 + Bytes.toNat (source (c.fieldLength + 8)) % (c.order - 1))
  | none => source curve.coordinateLength

def generatePair (source : Nat → Bytes) (curve : Curve) : Except CryptoError KeyPair := do
  let d := privateKey source curve
  return ⟨d, ← derivePublic curve d⟩

/-- The provider that computes everything itself, but on X448 and Ed448, and exchanges ECDSA signatures
in the given form. -/
def provider (form : Ecdsa.Form) (source : Nat → Bytes) : Provider where
  form := form
  reply
    | .sign alg curve d data => sign form alg curve d data
    | .verify alg key data signature => verify form alg key data signature
    | .mac alg key data => mac alg key data
    | .macVerify alg key data tag => macVerify alg key data tag
    | .encrypt alg key iv aad plaintext => encrypt alg key iv aad plaintext
    | .decrypt alg key iv aad ciphertext => decrypt alg key iv aad ciphertext
    | .agree d peer => agree d peer
    | .generatePair curve => generatePair source curve
    | .derivePublic curve d => derivePublic curve d
    | .random length => .ok (source length)

end Cose.Software
