import Cose.Key.Draft
import Cose.Operation.PublicKey

namespace Cose.Key

/-- A new key pair on a curve of prime order. -/
def generateEc2 (p : Provider) (curve : Curve) : Session Key := do
  Material.checkCurve curve .ec2
  let pair ← Session.ask p (.generatePair curve)
  match pair.point.y with
  | none =>
    (.error (.provider (curve.name ++ " key pair without a y-coordinate")) : Except CryptoError Key)
  | some y =>
    let draft := { Draft.empty .ec2 with
      curve := some curve, x := some pair.point.x, y := some y, d := some pair.d }
    draft.build

def generateOkp (p : Provider) (curve : Curve) : Session Key := do
  Material.checkCurve curve .okp
  let pair ← Session.ask p (.generatePair curve)
  let draft := { Draft.empty .okp with
    curve := some curve, x := some pair.point.x, d := some pair.d }
  draft.build

/-- The length of a new symmetric key for an algorithm: the one that it demands, or that of the
digest behind a tag. -/
def symmetricLength (alg : Algorithm) : Except KeyError Nat :=
  match alg.spec.keyLength, alg.family, alg.spec.hash with
  | some length, _, _ => .ok length
  | none, .hmac, some hash => .ok hash.digestLength
  | _, _, _ => .error (.algorithmNotAllowed alg .noKeyLength)

/-- A new symmetric key, restricted to the algorithm that it is for. -/
def generateSymmetric (p : Provider) (alg : Algorithm) : Session Key := do
  let length ← symmetricLength alg
  let k ← Session.ask p (.random length)
  let draft := { Draft.empty .symmetric with algorithm := some alg.id, k := some k }
  draft.build

/-- The secret that a private key shares with another key on the same curve. -/
def agree (p : Provider) (mine peer : AgreementKey) : Session Bytes := do
  let curve ← mine.key.requiredCurve
  let other ← peer.key.requiredCurve
  unless curve = other do
    (.error (.invalidKey (.curveMismatch curve other)) : Except CryptoError Unit)
  let d ← required "d" mine.key.material.d?
  let point ← peer.key.publicPoint p curve "d"
  Session.ask p (.agree d { point with curve })

end Cose.Key
