import Cose.Algorithm
import Cose.KeyUsage

namespace Cose

/-- Why an algorithm cannot be used with a key or in an operation. -/
inductive Misfit
  | keyType (actual : KeyType)
  | curve (actual : Curve)
  | keyLength (expected actual : Nat)
  | family (actual : Family)
  | noKeyLength
deriving DecidableEq, Repr

def Misfit.message : Misfit → String
  | keyType t => s!"{t} keys cannot be used"
  | curve c => s!"curve {c} cannot be used"
  | keyLength expected actual => s!"key must be {expected} bytes, got {actual}"
  | family f => s!"{f} algorithms cannot be used here"
  | noKeyLength => "no symmetric key length is defined"

/-- What is wrong with a key. -/
inductive KeyError
  | missingKeyType
  | unsupportedKeyType (id : Int64)
  | wrongKeyType (expected actual : KeyType)
  | missingCurve
  | unsupportedCurve (id : Int64) (keyType : KeyType)
  | missingMaterial (parameter : String)
  | incompleteMaterial (rule : String)
  | invalidLength (parameter : String) (expected actual : Nat)
  | invalidParameter (label : Int64) (expected : String)
  | reservedLabel (label : Int64)
  | unsupportedOperation (id : Int64)
  | incompatibleOperations (usage : KeyUsage) (operations : List KeyOperation)
  | incompatibleUsage (usage : KeyUsage) (keyType : KeyType) (curve : Option Curve)
  | algorithmMismatch (key requested : Int64)
  | algorithmNotAllowed (algorithm : Algorithm) (reason : Misfit)
  | operationNotAllowed (operation : KeyOperation)
  | unsupportedAlgorithm (id : Int64)
  | noPublicKey (keyType : KeyType)
deriving DecidableEq, Repr

namespace KeyError

/-- Operations between brackets, separated by commas. -/
def listOperations (ops : List KeyOperation) : String :=
  "[" ++ ", ".intercalate (ops.map KeyOperation.name) ++ "]"

/-- A curve that may be missing, as messages show it. -/
def showCurve : Option Curve → String
  | some c => "Some(" ++ c.word ++ ")"
  | none => "None"

def message : KeyError → String
  | missingKeyType => "missing key type"
  | unsupportedKeyType id => s!"unsupported key type {id}"
  | wrongKeyType expected actual => s!"expected a {expected} key, got {actual}"
  | missingCurve => "missing curve"
  | unsupportedCurve id keyType => s!"curve {id} is not supported for {keyType} keys"
  | missingMaterial parameter => s!"missing key material: {parameter}"
  | incompleteMaterial rule => s!"incomplete key material: {rule}"
  | invalidLength parameter expected actual =>
    s!"{parameter} must be {expected} bytes, got {actual}"
  | invalidParameter label expected => s!"key parameter {label} must be a {expected}"
  | reservedLabel label => s!"label {label} is a reserved key parameter"
  | unsupportedOperation id => s!"unsupported key operation {id}"
  | incompatibleOperations usage ops =>
    "operations " ++ listOperations ops ++ s!" are not compatible with a {usage} key"
  | incompatibleUsage usage keyType curve =>
    s!"a {keyType} key on " ++ showCurve curve ++ s!" cannot be used for {usage}"
  | algorithmMismatch key requested =>
    s!"key is restricted to algorithm {key}, requested {requested}"
  | algorithmNotAllowed alg reason =>
    "algorithm " ++ alg.name ++ " is not allowed by this key: " ++ reason.message
  | operationNotAllowed op => s!"operation {op} is not permitted by the key"
  | unsupportedAlgorithm id => s!"unsupported algorithm {id}"
  | noPublicKey keyType => s!"{keyType} keys have no public part"

end KeyError

end Cose
