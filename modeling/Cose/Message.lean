import Cose.Message.Encrypt
import Cose.Message.Mac
import Cose.Message.Sign
import Cose.Message.Sign1

namespace Cose.Message

inductive Kind
  | sign1
  | sign
  | signature
  | mac0
  | mac
  | encrypt0
  | encrypt
  | recipient
deriving DecidableEq, Repr

namespace Kind

@[reducible] def Body : Kind → Type
  | sign1 => Sign1
  | sign => Sign
  | signature => Signature
  | mac0 => Mac0
  | mac => Mac
  | encrypt0 => Encrypt0
  | encrypt => Encrypt
  | recipient => Recipient

def name : Kind → String
  | sign1 => Sign1.name
  | sign => Sign.name
  | signature => Signature.name
  | mac0 => Mac0.name
  | mac => Mac.name
  | encrypt0 => Encrypt0.name
  | encrypt => Encrypt.name
  | recipient => Recipient.name

/-- The tag of a structure that can stand on its own. -/
def tag? : Kind → Option Nat
  | encrypt0 => some 16
  | mac0 => some 17
  | sign1 => some 18
  | encrypt => some 96
  | mac => some 97
  | sign => some 98
  | signature | recipient => none

/-- Reads the array of a structure, with recipients that nest at most so many levels. -/
def read (maxDepth : Nat) : (k : Kind) → Reader k.Body
  | sign1 => Sign1.read
  | sign => Sign.read
  | signature => Signature.read
  | mac0 => Mac0.read
  | mac => Mac.read maxDepth
  | encrypt0 => Encrypt0.read
  | encrypt => Encrypt.read maxDepth
  | recipient => Recipient.read maxDepth

end Kind

/-- The structure as an array without a tag. -/
def encode : {k : Kind} → k.Body → Bytes
  | .sign1, m => Sign1.encode m
  | .sign, m => Sign.encode m
  | .signature, m => Signature.encode m
  | .mac0, m => Mac0.encode m
  | .mac, m => Mac.encode m
  | .encrypt0, m => Encrypt0.encode m
  | .encrypt, m => Encrypt.encode m
  | .recipient, m => Recipient.encode m

/-- The structure as an array behind its tag, if it has one. -/
def encodeTagged {k : Kind} (m : k.Body) : Bytes :=
  match k.tag? with
  | some tag => Cbor.head .tag tag ++ encode m
  | none => encode m

/-- Passes over a tag, which must be the structure's own. -/
def readTag (k : Kind) : Reader Unit := do
  match ← Reader.lead with
  | .item .tag form =>
    let actual ← Reader.argument form
    match k.tag? with
    | some expected =>
      unless actual = expected do
        throw (.unexpectedTag k.name expected actual)
    | none => throw (.unexpectedType k.name "untagged array")
  | _ => return ()

/-- The structure that a byte string stands for, if its recipients nest at most so many levels. -/
def decodeWithin (maxDepth : Nat) (k : Kind) (bs : Bytes) : Except DecodingError k.Body := do
  if bs.isEmpty then
    throw .empty
  Reader.complete k.name (do readTag k; k.read maxDepth) bs

def decode (k : Kind) (bs : Bytes) : Except DecodingError k.Body :=
  decodeWithin Recipient.maxDepth k bs

end Cose.Message
