import Cose.Curve
import Cose.KeyOperation

namespace Cose

/-- What a key is meant for. -/
inductive KeyUsage
  | signing
  | keyAgreement
  | encryption
  | mac
deriving DecidableEq, Repr

namespace KeyUsage

def all : List KeyUsage := [signing, keyAgreement, encryption, mac]

def name : KeyUsage → String
  | signing => "signing"
  | keyAgreement => "key agreement"
  | encryption => "encryption"
  | mac => "MAC"

instance : ToString KeyUsage := ⟨name⟩

/-- The operations that a key with this usage may declare. -/
def operations : KeyUsage → List KeyOperation
  | signing => [.sign, .verify]
  | keyAgreement => [.wrapKey, .unwrapKey]
  | encryption => [.encrypt, .decrypt]
  | mac => [.macCreate, .macVerify]

/-- Whether a key that declares operations must declare all those of the usage. -/
def joint : KeyUsage → Bool
  | encryption | mac => true
  | signing | keyAgreement => false

/-- Whether a key with this usage may declare the operation. -/
def permits (u : KeyUsage) (op : KeyOperation) : Bool :=
  u.operations.contains op

/-- Whether a key of the given type, on the given curve if it has one, can serve the usage. -/
def supports (u : KeyUsage) (t : KeyType) (curve : Option Curve) : Bool :=
  match u, t, curve with
  | signing, .ec2, some c | signing, .okp, some c => c.signs && c.keyType == t
  | keyAgreement, .ec2, some c | keyAgreement, .okp, some c => c.agrees && c.keyType == t
  | encryption, .symmetric, _ | mac, .symmetric, _ => true
  | _, _, _ => false

/-- Whether a list of declared operations fits the usage; only a list that is complete has to name
the operations of a joint usage together. -/
def accepts (u : KeyUsage) (ops : List KeyOperation) (complete : Bool) : Bool :=
  ops.all u.permits && !(complete && u.joint && !ops.isEmpty && !u.operations.all ops.contains)

end KeyUsage

end Cose
