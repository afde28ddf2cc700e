import Cose.Header
import Cose.Key.Fit

namespace Cose

/-- What a caller can say about an operation. -/
structure Options where
  algorithm : Option Algorithm := none
  /-- Data that is authenticated but not carried. -/
  externalAad : Bytes := []
  /-- The nonce of an authenticated cipher. -/
  iv : Option Bytes := none
  /-- Content that travels on its own. -/
  detached : Option Bytes := none
deriving DecidableEq, Repr

/-- A pair of operations, one that produces and one that checks what it produced. -/
structure Purpose where
  families : List Family
  produce : KeyOperation
  check : KeyOperation

namespace Purpose

def signature : Purpose := ⟨[.ecdsa, .edDsa], .sign, .verify⟩

def tag : Purpose := ⟨[.hmac], .macCreate, .macVerify⟩

def encryption : Purpose := ⟨[.aesGcm], .encrypt, .decrypt⟩

end Purpose

namespace Selection

/-- The identifier named by one of two sources; if both name one it must be the same. -/
def agreed : (first second : Option Int64) → Except Error (Option Int64)
  | some a, some b => if a = b then .ok (some a) else .error (.algorithmConflict a b)
  | some a, none => .ok (some a)
  | none, b => .ok b

/-- The algorithm with an identifier that somebody must have named. -/
def named : Option Int64 → Except Error Algorithm
  | none => .error (.missingHeader "alg")
  | some id =>
    match Algorithm.ofId? id with
    | some alg => .ok alg
    | none => .error (.key (.unsupportedAlgorithm id))

/-- The identifier by which something is produced: the caller's, a header's or else the key's. -/
def idToProduce (explicit : Option Algorithm) (protectedMap unprotected : LabelMap) (key : Key) :
    Except Error (Option Int64) := do
  let first ← agreed (explicit.map Algorithm.id) protectedMap.algorithm?
  let header ← agreed first unprotected.algorithm?
  return header <|> key.algorithm

/-- The identifier by which something is checked: the caller's, the protected header's or else the
key's, which the unprotected header must not contradict. -/
def idToCheck (explicit : Option Algorithm) (protectedMap unprotected : LabelMap) (key : Key) :
    Except Error (Option Int64) := do
  let first ← agreed (explicit.map Algorithm.id) protectedMap.algorithm?
  match first <|> key.algorithm with
  | some id => agreed (some id) unprotected.algorithm?
  | none => return none

/-- The algorithm must suit the purpose, and the key both. -/
def checkKey (families : List Family) (op : KeyOperation) (key : Key) (alg : Algorithm) :
    Except KeyError Unit := do
  unless families.contains alg.family do
    throw (.algorithmNotAllowed alg (.family alg.family))
  key.checkFor alg op

/-- The algorithm by which something is produced. -/
def toProduce (purpose : Purpose) (explicit : Option Algorithm)
    (protectedMap unprotected : LabelMap) (key : Key) : Except Error Algorithm := do
  let alg ← named (← idToProduce explicit protectedMap unprotected key)
  checkKey purpose.families purpose.produce key alg
  return alg

/-- The algorithm by which something is checked. -/
def toCheck (purpose : Purpose) (explicit : Option Algorithm) (headers : Headers) (key : Key) :
    Except Error Algorithm := do
  let alg ← named (← idToCheck explicit headers.protectedHeader.map headers.unprotected key)
  checkKey purpose.families purpose.check key alg
  return alg

/-- The protected header to be written: it names the algorithm unless a header does already. -/
def record (alg : Algorithm) (protectedMap unprotected : LabelMap) : LabelMap :=
  if protectedMap.algorithm?.isNone && unprotected.algorithm?.isNone then
    protectedMap.insert Header.algorithm (.int alg.id)
  else protectedMap

end Selection

end Cose
