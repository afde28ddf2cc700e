import Cose.Crypto.PrimeCurve
import Cose.Ecdsa.Der
import Cose.Error.Crypto

namespace Cose.Ecdsa

/-- The forms in which a signature is written. -/
inductive Form
  | fixed
  | der
deriving DecidableEq, Repr

/-- A signature: two numbers between one and the order of the curve. -/
structure Signature (c : PrimeCurve) where
  r : Nat
  s : Nat
  r_pos : 0 < r
  r_lt : r < c.order
  s_pos : 0 < s
  s_lt : s < c.order
deriving DecidableEq

namespace Signature

variable {c : PrimeCurve}

/-- The signature of two numbers in the right range. -/
def ofPair? (c : PrimeCurve) (r s : Nat) : Option (Signature c) :=
  if h : (0 < r ∧ r < c.order) ∧ 0 < s ∧ s < c.order then
    some ⟨r, s, h.1.1, h.1.2, h.2.1, h.2.2⟩
  else none

/-- Both numbers in the length of the field. -/
def toFixed (sig : Signature c) : Bytes :=
  Bytes.ofNat c.fieldLength sig.r ++ Bytes.ofNat c.fieldLength sig.s

/-- The signature in the length of two field elements. -/
def ofFixed? (c : PrimeCurve) (bs : Bytes) : Option (Signature c) :=
  if bs.length = 2 * c.fieldLength then
    ofPair? c (Bytes.toNat (bs.take c.fieldLength)) (Bytes.toNat (bs.drop c.fieldLength))
  else none

def toDer (sig : Signature c) : Bytes :=
  Der.encodePair sig.r sig.s

/-- The signature that a strict sequence of two integers stands for. -/
def ofDer? (c : PrimeCurve) (bs : Bytes) : Option (Signature c) := do
  let (r, s) ← Der.decodePair? bs
  ofPair? c r s

def write (form : Form) (sig : Signature c) : Bytes :=
  match form with
  | .fixed => sig.toFixed
  | .der => sig.toDer

/-- The signature that a byte string of a given form stands for. -/
def read? (form : Form) (c : PrimeCurve) (bs : Bytes) : Option (Signature c) :=
  match form with
  | .fixed => ofFixed? c bs
  | .der => ofDer? c bs

end Signature

/-- The fixed form of a signature given as a sequence, for a field of the given length. -/
def fixedOfDer (bs : Bytes) (fieldLength : Nat) : Except SignatureFault Bytes :=
  match PrimeCurve.ofFieldLength? fieldLength with
  | none => .error (.fieldLength fieldLength)
  | some c =>
    match Signature.ofDer? c bs with
    | some sig => .ok sig.toFixed
    | none => .error .unconvertible

/-- The sequence of a signature given in fixed form, for a field of the given length. -/
def derOfFixed (bs : Bytes) (fieldLength : Nat) : Except SignatureFault Bytes :=
  if bs.length ≠ 2 * fieldLength then .error (.fixedLength (2 * fieldLength) bs.length)
  else
    match PrimeCurve.ofFieldLength? fieldLength with
    | none => .error (.fieldLength fieldLength)
    | some c =>
      match Signature.ofFixed? c bs with
      | some sig => .ok sig.toDer
      | none => .error .unconvertible

end Cose.Ecdsa
