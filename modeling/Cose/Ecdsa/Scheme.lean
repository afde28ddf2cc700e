import Cose.Crypto.Hmac
import Cose.Ecdsa.Signature

namespace Cose

namespace PrimeCurve

/-- The scalar that a private key stands for. -/
def scalar? (c : PrimeCurve) (d : Bytes) : Option Nat :=
  let n := Bytes.toNat d
  if d.length = c.fieldLength ∧ 0 < n ∧ n < c.order then some n else none

/-- The point whose coordinates, one after the other, are given. -/
def point? (c : PrimeCurve) (xy : Bytes) : Option (Point c) :=
  let x := Bytes.toNat (xy.take c.fieldLength)
  let y := Bytes.toNat (xy.drop c.fieldLength)
  let fits := xy.length = 2 * c.fieldLength ∧ x < c.prime ∧ y < c.prime
  if fits ∧ c.contains (.ofNat c.prime x) (.ofNat c.prime y) then
    some (.ofCoordinates (.ofNat c.prime x) (.ofNat c.prime y))
  else none

def coordinateBytes (c : PrimeCurve) (x : c.Coordinate) : Bytes :=
  Bytes.ofNat c.fieldLength x.val

/-- The coordinates of the public point of a scalar. -/
def publicPoint? (c : PrimeCurve) (d : Nat) : Option (Bytes × Bytes) := do
  let (x, y) ← (Point.multiply d (.generator c)).coordinates?
  return (c.coordinateBytes x, c.coordinateBytes y)

/-- The first coordinate of a point multiplied by a scalar. -/
def sharedSecret? (c : PrimeCurve) (d : Nat) (p : Point c) : Option Bytes := do
  let (x, _) ← (p.multiply d).coordinates?
  return c.coordinateBytes x

end PrimeCurve

namespace Ecdsa

/-- The number that stands for the data; the hash is never longer than the order. -/
def digestNumber (c : PrimeCurve) (data : Bytes) : Nat :=
  Bytes.toNat (c.hash.digest data)

/-- The key and the value of a generator of numbers by keyed hashing. -/
structure Generator where
  key : Bytes
  value : Bytes

namespace Generator

def mix (hash : Hash) (g : Generator) (data : Bytes) : Generator :=
  let key := hash.hmac g.key (g.value ++ data)
  ⟨key, hash.hmac key g.value⟩

/-- The generator for a private key and the number of the data. -/
def start (c : PrimeCurve) (d z : Nat) : Generator :=
  let seed := Bytes.ofNat c.fieldLength d ++ Bytes.ofNat c.fieldLength (z % c.order)
  let blank : Generator :=
    ⟨List.replicate c.hash.digestLength 0, List.replicate c.hash.digestLength 1⟩
  (blank.mix c.hash (0 :: seed)).mix c.hash (1 :: seed)

/-- So many values one after the other, and the generator behind them. -/
def draw (hash : Hash) : Nat → Generator → Bytes × Generator
  | 0, g => ([], g)
  | n + 1, g =>
    let value := hash.hmac g.key g.value
    let (rest, last) := draw hash n { g with value }
    (value ++ rest, last)

/-- The first of at most so many numbers drawn that lies between one and the order. -/
def scalar? (c : PrimeCurve) : (attempts : Nat) → Generator → Option Nat
  | 0, _ => none
  | attempts + 1, g =>
    let length := c.hash.digestLength
    let (bs, g) := draw c.hash ((c.fieldLength + length - 1) / length) g
    let k := Bytes.toNat bs >>> (8 * bs.length - (c.order.log2 + 1))
    if 0 < k ∧ k < c.order then some k
    else scalar? c attempts (g.mix c.hash [0])

end Generator

/-- The signature of some data with a private scalar. -/
def sign? (c : PrimeCurve) (d : Nat) (data : Bytes) : Option (Signature c) := do
  let z := digestNumber c data
  let k ← Generator.scalar? c 256 (.start c d z)
  let (x, _) ← (PrimeCurve.Point.multiply k (.generator c)).coordinates?
  let r := Residue.ofNat c.order x.val
  let s := (Residue.ofNat c.order k).inverse * (.ofNat c.order z + r * .ofNat c.order d)
  Signature.ofPair? c r.val s.val

/-- Whether a signature of some data is the public point's. -/
def verify {c : PrimeCurve} (q : PrimeCurve.Point c) (data : Bytes) (sig : Signature c) : Bool :=
  let w := (Residue.ofNat c.order sig.s).inverse
  let u := .ofNat c.order (digestNumber c data) * w
  let v := .ofNat c.order sig.r * w
  let p := (PrimeCurve.Point.multiply u.val (.generator c)).add (q.multiply v.val)
  match p.coordinates? with
  | some (x, _) => x.val % c.order == sig.r
  | none => false

end Ecdsa

end Cose
