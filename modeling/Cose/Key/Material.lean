import Cose.Error.Key
import Cose.LabelMap

namespace Cose.Key

namespace Parameter

def keyType : Int64 := 1

def keyId : Int64 := 2

def algorithm : Int64 := 3

def operations : Int64 := 4

def baseIv : Int64 := 5

def curve : Int64 := -1

/-- The label of the x-coordinate, or of an octet public key. -/
def x : Int64 := -2

def y : Int64 := -3

def d : Int64 := -4

def k : Int64 := -1

/-- The labels common to all keys, in the order in which they are written. -/
def common : List Int64 := [keyType, keyId, algorithm, operations, baseIv]

end Parameter

/-- The kinds of key that can be interpreted. -/
inductive Kind
  | ec2
  | okp
  | symmetric
deriving DecidableEq, Repr

namespace Kind

def keyType : Kind → KeyType
  | ec2 => .ec2
  | okp => .okp
  | symmetric => .symmetric

def ofKeyType? : KeyType → Option Kind
  | .ec2 => some ec2
  | .okp => some okp
  | .symmetric => some symmetric
  | .reserved => none

/-- The labels whose meaning depends on the kind. -/
def own : Kind → List Int64
  | ec2 => [Parameter.curve, Parameter.x, Parameter.y, Parameter.d]
  | okp => [Parameter.curve, Parameter.x, Parameter.d]
  | symmetric => [Parameter.k]

/-- Whether a key of this kind gives the label a meaning. -/
def reserves (kind : Kind) : Label → Bool
  | .int i => Parameter.common.contains i || kind.own.contains i
  | .text _ => false

end Kind

/-- The parameters particular to each kind of key. -/
inductive Material
  | ec2 (curve : Curve) (x y d : Option Bytes)
  | okp (curve : Curve) (x d : Option Bytes)
  | symmetric (k : Bytes)
deriving DecidableEq, Repr

namespace Material

def kind : Material → Kind
  | ec2 .. => .ec2
  | okp .. => .okp
  | symmetric _ => .symmetric

def curve? : Material → Option Curve
  | ec2 curve .. | okp curve .. => some curve
  | symmetric _ => none

/-- The x-coordinate, or the octet public key. -/
def x? : Material → Option Bytes
  | ec2 _ x _ _ | okp _ x _ => x
  | symmetric _ => none

def y? : Material → Option Bytes
  | ec2 _ _ y _ => y
  | okp .. | symmetric _ => none

def d? : Material → Option Bytes
  | ec2 _ _ _ d | okp _ _ d => d
  | symmetric _ => none

def k? : Material → Option Bytes
  | symmetric k => some k
  | ec2 .. | okp .. => none

/-- The curve must belong to the type of key. -/
def checkCurve (curve : Curve) (keyType : KeyType) : Except KeyError Unit :=
  if curve.keyType = keyType then .ok () else .error (.unsupportedCurve curve.id keyType)

/-- A parameter that is there must be as long as the curve's coordinates. -/
def checkLength (parameter : String) (curve : Curve) : Option Bytes → Except KeyError Unit
  | some bs =>
    if bs.length = curve.coordinateLength then .ok ()
    else .error (.invalidLength parameter curve.coordinateLength bs.length)
  | none => .ok ()

/-- A point needs both coordinates, and a key without a point needs its private part. -/
def checkPoint : (x y d : Option Bytes) → Except KeyError Unit
  | some _, some _, _ | none, none, some _ => .ok ()
  | none, none, none => .error (.missingMaterial "x or d")
  | _, _, _ => .error (.incompleteMaterial "x and y must both be present")

/-- The rules for the parameters, the first that is broken being reported. -/
def check : Material → Except KeyError Unit
  | ec2 curve x y d => do
    checkCurve curve .ec2
    checkPoint x y d
    checkLength "x" curve x
    checkLength "y" curve y
    checkLength "d" curve d
  | okp curve x d => do
    checkCurve curve .okp
    if x.isNone && d.isNone then
      throw (.missingMaterial "x or d")
    checkLength "x" curve x
    checkLength "d" curve d
  | symmetric k => do
    if k.isEmpty then
      throw (.missingMaterial "k")

/-- The entry for a byte string that may be missing. -/
def bytesEntry (label : Int64) (bs : Option Bytes) : List (Label × Value) :=
  bs.toList.map fun bs => (.int label, .bytes bs)

/-- The entries of the parameters, in the order in which they are written. -/
def entries : Material → List (Label × Value)
  | ec2 curve x y d =>
    (.int Parameter.curve, .int curve.id) :: bytesEntry Parameter.x x ++ bytesEntry Parameter.y y
      ++ bytesEntry Parameter.d d
  | okp curve x d =>
    (.int Parameter.curve, .int curve.id) :: bytesEntry Parameter.x x ++ bytesEntry Parameter.d d
  | symmetric k => bytesEntry Parameter.k (some k)

/-- Whether there is anything secret among the parameters. -/
def hasPrivate (m : Material) : Bool := m.d?.isSome || m.k?.isSome

/-- Whether the public part is among the parameters. -/
def hasPublic (m : Material) : Bool := m.x?.isSome

end Material

end Cose.Key
