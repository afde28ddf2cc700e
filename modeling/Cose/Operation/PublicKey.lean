import Cose.Key.Basic
import Cose.Session

namespace Cose.Key

/-- A parameter that the key must have. -/
def required {α : Type} (parameter : String) : Option α → Except KeyError α
  | some a => .ok a
  | none => .error (.missingMaterial parameter)

/-- The curve, which a key must have to be of use here. -/
def requiredCurve (key : Key) : Except KeyError Curve :=
  match key.curve? with
  | some curve => .ok curve
  | none => .error .missingCurve

/-- The public part, for which the provider is asked only if the key does not carry it. A key that
has neither part lacks what the caller calls missing. -/
def publicPoint (p : Provider) (key : Key) (curve : Curve) (missing : String) :
    Session PublicPoint :=
  match key.material.x? with
  | some x => return ⟨x, key.material.y?⟩
  | none => do
    let d ← required missing key.material.d?
    Session.ask p (.derivePublic curve d)

theorem publicPoint_of_x? {key : Key} {x : Bytes} (hx : key.material.x? = some x) (p : Provider)
    (curve : Curve) (missing : String) :
    key.publicPoint p curve missing = pure ⟨x, key.material.y?⟩ := by
  rw [publicPoint, hx]

/-- The parameters with a public part and without a private one. -/
def Material.publish (m : Material) (point : PublicPoint) : Material :=
  match m with
  | .ec2 curve .. => .ec2 curve (some point.x) point.y none
  | .okp curve .. => .okp curve (some point.x) none
  | .symmetric k => .symmetric k

@[simp] theorem Material.kind_publish (m : Material) (point : PublicPoint) :
    (m.publish point).kind = m.kind := by
  cases m <;> rfl

/-- The key without its private part. -/
def toPublic (p : Provider) (key : Key) : Session Key :=
  match key.curve? with
  | none => (.error (.noPublicKey key.keyType) : Except KeyError Key)
  | some curve => do
    let point ← publicPoint p key curve "x or d"
    make key.keyId key.algorithm key.operations key.baseIv (key.material.publish point) key.extra
      (by simpa using key.unreserved)

end Cose.Key
