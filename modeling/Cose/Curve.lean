import Cose.KeyType

namespace Cose

/-- The curves on which a key can lie. -/
inductive Curve
  | p256
  | p384
  | p521
  | x25519
  | x448
  | ed25519
  | ed448
deriving DecidableEq, Repr

namespace Curve

/-- All curves, by ascending identifier. -/
def all : List Curve := [p256, p384, p521, x25519, x448, ed25519, ed448]

def id : Curve → Int64
  | p256 => 1
  | p384 => 2
  | p521 => 3
  | x25519 => 4
  | x448 => 5
  | ed25519 => 6
  | ed448 => 7

def ofId? (id : Int64) : Option Curve :=
  all.find? (·.id == id)

def name : Curve → String
  | p256 => "P-256"
  | p384 => "P-384"
  | p521 => "P-521"
  | x25519 => "X25519"
  | x448 => "X448"
  | ed25519 => "Ed25519"
  | ed448 => "Ed448"

/-- The name without its hyphen, used where a curve is shown as one word. -/
def word (c : Curve) : String :=
  match c with
  | p256 => "P256"
  | p384 => "P384"
  | p521 => "P521"
  | _ => c.name

instance : ToString Curve := ⟨name⟩

def keyType : Curve → KeyType
  | p256 | p384 | p521 => .ec2
  | x25519 | x448 | ed25519 | ed448 => .okp

/-- The length in bytes of a coordinate, of an octet public key, and of a private key. -/
def coordinateLength : Curve → Nat
  | p256 => 32
  | p384 => 48
  | p521 => 66
  | x25519 => 32
  | x448 => 56
  | ed25519 => 32
  | ed448 => 57

/-- Whether the curve has a signature scheme. -/
def signs : Curve → Bool
  | p256 | p384 | p521 | ed25519 | ed448 => true
  | x25519 | x448 => false

/-- Whether two keys on the curve can agree on a secret. -/
def agrees : Curve → Bool
  | p256 | p384 | p521 | x25519 | x448 => true
  | ed25519 | ed448 => false

theorem coordinateLength_pos (c : Curve) : 0 < c.coordinateLength := by
  cases c <;> decide

@[simp] theorem ofId?_id (c : Curve) : ofId? c.id = some c := by
  cases c <;> decide

theorem id_of_ofId? {i : Int64} {c : Curve} (h : ofId? i = some c) : c.id = i := by
  simpa using List.find?_some h

end Curve

end Cose
