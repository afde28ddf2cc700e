import Cose.Crypto.Residue
import Cose.Crypto.Sha2

namespace Cose.Curve25519

/-- The prime modulo which coordinates are taken. -/
def prime : Nat :=
  0x7fffffffffffffffffffffffffffffffffffffffffffffffffffffffffffffed

/-- The prime order of the group that signatures use. -/
def order : Nat :=
  0x1000000000000000000000000000000014def9dea2f79cd65812631a5cf5d3ed

abbrev Coordinate := Residue prime

/-- The number whose base-256 digits, least significant first, are given. -/
def toNat (bs : Bytes) : Nat := Bytes.toNat bs.reverse

/-- The 32 base-256 digits of a number, least significant first. -/
def ofNat (n : Nat) : Bytes := (Bytes.ofNat 32 n).reverse

/-- The scalar of 32 secret bytes: a multiple of eight with its highest bit at a fixed place. -/
def clamp (bs : Bytes) : Nat :=
  1 <<< 254 + toNat bs % 1 <<< 254 / 8 * 8

/-- Two neighbouring multiples of a point, each as a fraction. -/
structure Ladder where
  x2 : Coordinate
  z2 : Coordinate
  x3 : Coordinate
  z3 : Coordinate

def Ladder.swap (l : Ladder) : Ladder := ⟨l.x3, l.z3, l.x2, l.z2⟩

/-- Doubles the first multiple and adds it to the second. -/
def Ladder.step (u : Coordinate) (l : Ladder) : Ladder :=
  let a := l.x2 + l.z2
  let aa := a * a
  let b := l.x2 - l.z2
  let bb := b * b
  let e := aa - bb
  let da := (l.x3 - l.z3) * a
  let cb := (l.x3 + l.z3) * b
  ⟨aa * bb, e * (aa + 121665 * e), (da + cb) * (da + cb),
    u * ((da - cb) * (da - cb))⟩

/-- The first coordinate of a multiple of the point with first coordinate `u`. -/
def scalarMultiple (k : Nat) (u : Coordinate) : Coordinate :=
  let bits := (List.range 255).reverse.map k.testBit
  let last := bits.foldl (fun (l : Ladder) bit =>
    if bit then (l.swap.step u).swap else l.step u) ⟨1, 0, u, 1⟩
  last.x2 * last.z2.inverse

/-- The public key of 32 secret bytes, or what they share with a public key. -/
def agree (secret : Bytes) (publicKey : Bytes) : Bytes :=
  ofNat (scalarMultiple (clamp secret) (.ofNat prime (toNat publicKey % 1 <<< 255))).val

/-- The public key of the point from which all others are reached. -/
def basePoint : Bytes := ofNat 9

/-- A point of the twisted Edwards form with coordinates `x / z` and `y / z`, and `t = x * y / z`. -/
structure Point where
  x : Coordinate
  y : Coordinate
  z : Coordinate
  t : Coordinate

/-- The constant of the curve's equation `y² - x² = 1 + d x² y²`. -/
def constant : Coordinate :=
  0 - 121665 * Residue.inverse 121666

def rootOfMinusOne : Coordinate :=
  Residue.power 2 ((prime - 1) / 4)

namespace Point

def zero : Point := ⟨0, 1, 1, 0⟩

def ofCoordinates (x y : Coordinate) : Point := ⟨x, y, 1, x * y⟩

def add (p q : Point) : Point :=
  let a := (p.y - p.x) * (q.y - q.x)
  let b := (p.y + p.x) * (q.y + q.x)
  let ct := p.t * q.t * constant
  let c := ct + ct
  let dz := p.z * q.z
  let d := dz + dz
  let e := b - a
  let f := d - c
  let g := d + c
  let h := b + a
  ⟨e * f, g * h, f * g, e * h⟩

def negate (p : Point) : Point := ⟨0 - p.x, p.y, p.z, 0 - p.t⟩

def multiply (n : Nat) (p : Point) : Point :=
  if n = 0 then zero
  else
    let half := multiply (n / 2) p
    let twice := half.add half
    if n % 2 = 0 then twice else twice.add p
termination_by n

/-- The point as 32 bytes: the second coordinate, and the parity of the first as the last bit. -/
def encode (p : Point) : Bytes :=
  let w := p.z.inverse
  let x := p.x * w
  let y := p.y * w
  ofNat (y.val + (x.val % 2) <<< 255)

/-- An even root of the fraction of two coordinates. -/
def root? (u v : Coordinate) : Option Coordinate :=
  let v3 := v * v * v
  let r := u * v3 * (u * v3 * v3 * v).power ((prime - 5) / 8)
  let even (x : Coordinate) : Coordinate := if x.val % 2 = 0 then x else 0 - x
  if v * r * r = u then some (even r)
  else if v * r * r = 0 - u then some (even (r * rootOfMinusOne))
  else none

/-- The point that 32 bytes stand for. The second coordinate is taken modulo the prime. -/
def decode? (bs : Bytes) : Option Point := do
  let n := toNat bs
  let y : Coordinate := .ofNat prime (n % 1 <<< 255)
  let x ← root? (y * y - 1) (constant * y * y + 1)
  return .ofCoordinates (if n.testBit 255 then 0 - x else x) y

/-- The point from which all others of the group are reached: its second coordinate is four fifths
and its first one is even. -/
def base : Point :=
  let y := 4 * Residue.inverse 5
  let x := (root? (y * y - 1) (constant * y * y + 1)).getD 0
  .ofCoordinates x y

end Point

/-- The number that some data hashes to, modulo the order. -/
def hashNumber (data : Bytes) : Nat :=
  toNat (Hash.sha512.digest data) % order

def publicKey (secret : Bytes) : Bytes :=
  (Point.multiply (clamp ((Hash.sha512.digest secret).take 32)) .base).encode

def sign (secret data : Bytes) : Bytes :=
  let expanded := Hash.sha512.digest secret
  let a := clamp (expanded.take 32)
  let point := (Point.multiply a .base).encode
  let r := hashNumber (expanded.drop 32 ++ data)
  let commitment := (Point.multiply r .base).encode
  let k := hashNumber (commitment ++ point ++ data)
  commitment ++ ofNat ((r + k * a) % order)

/-- Whether 64 bytes are a signature of some data by a public key, given as its bytes and as the
point that they stand for. -/
def verify (key : Bytes) (point : Point) (data signature : Bytes) : Bool :=
  let s := toNat (signature.drop 32)
  let k := hashNumber (signature.take 32 ++ key ++ data)
  let commitment := (Point.multiply s .base).add (Point.multiply k point.negate)
  s < order && commitment.encode == signature.take 32

end Cose.Curve25519
