import Cose.Ecdsa.Signature

namespace Cose

/-- The public part of a key: the y-coordinate is there on curves of prime order only. -/
structure PublicPoint where
  x : Bytes
  y : Option Bytes
deriving DecidableEq, Repr

structure PublicKey extends PublicPoint where
  curve : Curve
deriving DecidableEq, Repr

structure KeyPair where
  d : Bytes
  point : PublicPoint
deriving DecidableEq, Repr

/-- What a provider is asked to do. -/
inductive Call
  | sign (alg : Algorithm) (curve : Curve) (d data : Bytes)
  | verify (alg : Algorithm) (key : PublicKey) (data signature : Bytes)
  | mac (alg : Algorithm) (key data : Bytes)
  | macVerify (alg : Algorithm) (key data tag : Bytes)
  | encrypt (alg : Algorithm) (key iv aad plaintext : Bytes)
  | decrypt (alg : Algorithm) (key iv aad ciphertext : Bytes)
  | agree (d : Bytes) (peer : PublicKey)
  | generatePair (curve : Curve)
  | derivePublic (curve : Curve) (d : Bytes)
  | random (length : Nat)
deriving DecidableEq, Repr

/-- What a successful answer to a call is. -/
@[reducible] def Call.Reply : Call → Type
  | verify .. | macVerify .. => Unit
  | generatePair _ => KeyPair
  | derivePublic .. => PublicPoint
  | sign .. | mac .. | encrypt .. | decrypt .. | agree .. | random _ => Bytes

/-- Answers to all calls, and the form in which ECDSA signatures are exchanged. -/
structure Provider where
  form : Ecdsa.Form
  reply : (c : Call) → Except CryptoError c.Reply

end Cose
