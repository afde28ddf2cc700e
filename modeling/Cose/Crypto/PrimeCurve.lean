import Cose.Algorithm
import Cose.Crypto.Residue

namespace Cose

/-- The curves of prime order. -/
inductive PrimeCurve
  | p256
  | p384
  | p521
deriving DecidableEq, Repr

namespace PrimeCurve

def all : List PrimeCurve := [p256, p384, p521]

/-- The curve as a key names it. -/
def curve : PrimeCurve → Curve
  | p256 => .p256
  | p384 => .p384
  | p521 => .p521

def ofCurve? (c : Curve) : Option PrimeCurve :=
  all.find? (·.curve == c)

/-- The length in bytes of a coordinate and of a scalar. -/
def fieldLength (c : PrimeCurve) : Nat := c.curve.coordinateLength

def ofFieldLength? (n : Nat) : Option PrimeCurve :=
  all.find? (·.fieldLength == n)

/-- The hash function that signatures on the curve use. -/
def hash : PrimeCurve → Hash
  | p256 => .sha256
  | p384 => .sha384
  | p521 => .sha512

/-- The prime modulo which coordinates are taken. -/
def prime : PrimeCurve → Nat
  | p256 => 0xffffffff00000001000000000000000000000000ffffffffffffffffffffffff
  | p384 =>
    0xfffffffffffffffffffffffffffffffffffffffffffffffffffffffffffffffeffffffff0000000000000000ffffffff
  | p521 =>
    0x1ffffffffffffffffffffffffffffffffffffffffffffffffffffffffffffffffffffffffffffffffffffffffffffffffffffffffffffffffffffffffffffffffff

/-- The number of points, which is prime. -/
def order : PrimeCurve → Nat
  | p256 => 0xffffffff00000000ffffffffffffffffbce6faada7179e84f3b9cac2fc632551
  | p384 =>
    0xffffffffffffffffffffffffffffffffffffffffffffffffc7634d81f4372ddf581a0db248b0a77aecec196accc52973
  | p521 =>
    0x01fffffffffffffffffffffffffffffffffffffffffffffffffffffffffffffffffa51868783bf2f966b7fcc0148f709a5d03bb5c9b8899c47aebb6fb71e91386409

/-- The constant term of the curve's equation. -/
def constant : PrimeCurve → Nat
  | p256 => 0x5ac635d8aa3a93e7b3ebbd55769886bc651d06b0cc53b0f63bce3c3e27d2604b
  | p384 =>
    0xb3312fa7e23ee7e4988e056be3f82d19181d9c6efe8141120314088f5013875ac656398d8a2ed19d2a85c8edd3ec2aef
  | p521 =>
    0x51953eb9618e1c9a1f929a21a0b68540eea2da725b99b315f3b8b489918ef109e156193951ec7e937b1652c0bd3bb1bf073573df883d2c34f1ef451fd46b503f00

/-- The coordinates of the point from which all others are reached. -/
def generator : PrimeCurve → Nat × Nat
  | p256 =>
    (0x6b17d1f2e12c4247f8bce6e563a440f277037d812deb33a0f4a13945d898c296,
      0x4fe342e2fe1a7f9b8ee7eb4a7c0f9e162bce33576b315ececbb6406837bf51f5)
  | p384 =>
    (0xaa87ca22be8b05378eb1c71ef320ad746e1d3b628ba79b9859f741e082542a385502f25dbf55296c3a545e3872760ab7,
      0x3617de4a96262c6f5d9e98bf9292dc29f8f41dbd289a147ce9da3113b5f0b8c00a60b1ce1d7e819d7a431d7c90ea0e5f)
  | p521 =>
    (0xc6858e06b70404e9cd9e3ecb662395b4429c648139053fb521f828af606b4d3dbaa14b5e77efe75928fe1dc127a2ffa8de3348b3c1856a429bf97e7e31c2e5bd66,
      0x11839296a789a3bc0045c8a5fb42c7d1bd998f54449579b446817afbd17273e662c97ee72995ef42640c550b9013fad0761353c7086a272c24088be94769fd16650)

abbrev Coordinate (c : PrimeCurve) := Residue c.prime

def contains (c : PrimeCurve) (x y : c.Coordinate) : Bool :=
  y * y == x * x * x - 3 * x + .ofNat c.prime c.constant

/-- A point in projective form: it has the coordinates `x / z²` and `y / z³`, and is the neutral
element if `z` is zero. -/
structure Point (c : PrimeCurve) where
  x : c.Coordinate
  y : c.Coordinate
  z : c.Coordinate

namespace Point

variable {c : PrimeCurve}

def zero : Point c := ⟨1, 1, 0⟩

def ofCoordinates (x y : c.Coordinate) : Point c := ⟨x, y, 1⟩

def generator (c : PrimeCurve) : Point c :=
  .ofCoordinates (.ofNat c.prime c.generator.1) (.ofNat c.prime c.generator.2)

def double (p : Point c) : Point c :=
  let delta := p.z * p.z
  let gamma := p.y * p.y
  let beta := p.x * gamma
  let m := (p.x - delta) * (p.x + delta)
  let alpha := m + m + m
  let beta2 := beta + beta
  let beta4 := beta2 + beta2
  let x := alpha * alpha - (beta4 + beta4)
  let yz := p.y + p.z
  let gg := gamma * gamma
  let gg2 := gg + gg
  let gg4 := gg2 + gg2
  ⟨x, alpha * (beta4 - x) - (gg4 + gg4), yz * yz - gamma - delta⟩

def add (p q : Point c) : Point c :=
  if p.z = 0 then q
  else if q.z = 0 then p
  else
    let pz2 := p.z * p.z
    let qz2 := q.z * q.z
    let u1 := p.x * qz2
    let u2 := q.x * pz2
    let s1 := p.y * q.z * qz2
    let s2 := q.y * p.z * pz2
    if u1 = u2 then
      if s1 = s2 then p.double else zero
    else
      let h := u2 - u1
      let r := s2 - s1
      let h2 := h * h
      let h3 := h * h2
      let v := u1 * h2
      let x := r * r - h3 - (v + v)
      ⟨x, r * (v - x) - s1 * h3, h * p.z * q.z⟩

def multiply (n : Nat) (p : Point c) : Point c :=
  if n = 0 then zero
  else
    let twice := (multiply (n / 2) p).double
    if n % 2 = 0 then twice else twice.add p
termination_by n

/-- The coordinates of a point other than the neutral element. -/
def coordinates? (p : Point c) : Option (c.Coordinate × c.Coordinate) :=
  if p.z = 0 then none
  else
    let w := p.z.inverse
    let w2 := w * w
    some (p.x * w2, p.y * (w2 * w))

end Point

end PrimeCurve

end Cose
