import Cose.Algorithm

namespace Cose

/-- What a key on a prime-order curve is loaded for. -/
inductive PointUse
  | signature
  | agreement
deriving DecidableEq, Repr

/-- The cause named when a key or signature is refused for the given use. -/
def PointUse.cause : PointUse → String
  | signature => "signature error"
  | agreement => "crypto error"

/-- What is wrong with key material handed to a primitive. -/
inductive KeyFault
  | privateScalar (curve : Curve) (use : PointUse)
  | publicPoint (curve : Curve) (use : PointUse)
  | missingY
  | undecodablePoint
  | lowOrderPoint
  | octetLength (what : String) (actual : Nat)
  | cipherKeyLength (algorithm : Algorithm) (actual : Nat)
  | curveMismatch (one other : Curve)
deriving DecidableEq, Repr

def KeyFault.message : KeyFault → String
  | privateScalar curve use => s!"bad {curve} private key: " ++ use.cause
  | publicPoint curve use => s!"bad {curve} public key: " ++ use.cause
  | missingY => "EC2 public key requires a y-coordinate"
  | undecodablePoint =>
    "bad Ed25519 public key: signature error: Cannot decompress Edwards point"
  | lowOrderPoint => "X25519 peer key is a low-order point"
  | octetLength what actual => s!"{what} must be 32 bytes, got {actual}"
  | cipherKeyLength alg actual =>
    alg.name ++ " requires a " ++ toString (alg.spec.keyLength.getD 0)
      ++ s!" byte key, got {actual}"
  | curveMismatch one other => s!"curve mismatch: {one} vs {other}"

/-- What is wrong with the form of a signature. -/
inductive SignatureFault
  | malformed (curve : Curve)
  | unconvertible
  | fixedLength (expected actual : Nat)
  | fieldLength (length : Nat)
deriving DecidableEq, Repr

def SignatureFault.message : SignatureFault → String
  | malformed curve => s!"bad {curve} signature: signature error"
  | unconvertible => "bad ECDSA signature: signature error"
  | fixedLength expected actual => s!"expected {expected} byte ECDSA signature, got {actual}"
  | fieldLength length => s!"no ECDSA curve with a {length} byte field"

/-- What went wrong in a cryptographic step. -/
inductive CryptoError
  | verificationFailed
  | decryptionFailed
  | unsupportedAlgorithm (algorithm : Algorithm)
  | unsupportedCurve (curve : Curve)
  | invalidKey (fault : KeyFault)
  | invalidSignature (fault : SignatureFault)
  | invalidIv (expected actual : Nat)
  | provider (reason : String)
deriving DecidableEq, Repr

def CryptoError.message : CryptoError → String
  | verificationFailed => "signature verification failed"
  | decryptionFailed => "decryption failed"
  | unsupportedAlgorithm alg => "unsupported algorithm: " ++ alg.name
  | unsupportedCurve curve => s!"unsupported curve: {curve}"
  | invalidKey fault => "invalid key: " ++ fault.message
  | invalidSignature fault => "invalid signature encoding: " ++ fault.message
  | invalidIv expected actual => s!"IV must be {expected} bytes, got {actual}"
  | provider reason => s!"provider failure: {reason}"

instance : MonadLift (Except SignatureFault) (Except CryptoError) :=
  ⟨Except.mapError .invalidSignature⟩

end Cose
