import Cose.Operation.Selection
import Cose.Session

namespace Cose.Nonce

/-- The base combined with a partial nonce, which is filled up with zeros in front. -/
def combine (base part : Bytes) (length : Nat) : Except CryptoError Bytes :=
  if base.length ≠ length then .error (.invalidIv length base.length)
  else if part.length > length then .error (.invalidIv length part.length)
  else .ok (Bytes.xor base (Bytes.padLeft length part))

/-- The nonce that the headers name. -/
def ofHeaders (key : Key) (alg : Algorithm) (protectedMap unprotected : LabelMap) :
    Except Error (Option Bytes) :=
  match protectedMap.iv? <|> unprotected.iv? with
  | some iv => return some iv
  | none =>
    match protectedMap.partialIv? <|> unprotected.partialIv? with
    | none => return none
    | some part =>
      match key.baseIv with
      | none => .error (.key (.missingMaterial "base_iv"))
      | some base => do return some (← combine base part alg.ivLength)

/-- The nonce that the caller and the headers name; if both name one it must be the same. -/
def agreed (explicit fromHeaders : Option Bytes) : Except DraftError (Option Bytes) :=
  match explicit, fromHeaders with
  | some iv, some other => if iv = other then .ok (some iv) else .error (.conflictingFields "IV")
  | some iv, none => .ok (some iv)
  | none, other => .ok other

/-- Whether a header has an entry for a nonce or for a part of one. -/
def isRecorded (protectedMap unprotected : LabelMap) : Bool :=
  [Header.iv, Header.partialIv].any fun label =>
    protectedMap.contains label || unprotected.contains label

/-- The nonce to encrypt with, and the unprotected header that goes with it. -/
def toEncrypt (p : Provider) (key : Key) (alg : Algorithm) (protectedMap unprotected : LabelMap)
    (explicit : Option Bytes) : Session (Bytes × LabelMap) := do
  let named ← agreed explicit (← ofHeaders key alg protectedMap unprotected)
  let iv ← match named with
    | some iv => pure iv
    | none => Session.ask p (.random alg.ivLength)
  if isRecorded protectedMap unprotected then return (iv, unprotected)
  else return (iv, unprotected.insert Header.iv (.bytes iv))

/-- The nonce to decrypt with. -/
def toDecrypt (key : Key) (alg : Algorithm) (protectedMap unprotected : LabelMap)
    (explicit : Option Bytes) : Except Error Bytes := do
  match ← agreed explicit (← ofHeaders key alg protectedMap unprotected) with
  | some iv => return iv
  | none => throw (.missingHeader "IV")

end Cose.Nonce
