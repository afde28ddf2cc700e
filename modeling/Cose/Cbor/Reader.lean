import Cose.Error.Decoding

namespace Cose

/-- What is left of a byte string that is being read, and how many bytes came before it. -/
structure Cursor where
  rest : Bytes
  position : Nat
deriving DecidableEq, Repr

/-- A computation that reads from the front of a byte string and can fail. -/
abbrev Reader := StateT Cursor (Except DecodingError)

namespace Cbor

/-- How a head gives its argument: in the initial byte, or in so many bytes after it. -/
inductive Argument
  | inline (value : Nat)
  | following (width : Nat)
deriving DecidableEq, Repr

/-- The form of argument that the additional information of an initial byte announces. -/
def Argument.ofInfo? (info : Nat) : Option Argument :=
  if info < 24 then some (.inline info)
  else match info with
    | 24 => some (.following 1)
    | 25 => some (.following 2)
    | 26 => some (.following 4)
    | 27 => some (.following 8)
    | _ => none

/-- What the initial byte of an item says about it. -/
inductive Lead
  | item (major : Major) (argument : Argument)
  | indefinite (items : Sequence)
  | bool (value : Bool)
  | null
  | other
deriving DecidableEq, Repr

/-- The major type with a given number, the seventh and last of which has no use as a whole. -/
def Major.ofCode? : Nat → Option Major
  | 0 => some unsigned
  | 1 => some negative
  | 2 => some bytes
  | 3 => some text
  | 4 => some array
  | 5 => some map
  | 6 => some tag
  | _ => none

/-- The items of a major type whose length may be left open. -/
def Major.sequence? : Major → Option Sequence
  | bytes => some .bytes
  | text => some .text
  | array => some .arrays
  | map => some .maps
  | unsigned | negative | tag => none

def Lead.ofByte (b : UInt8) : Lead :=
  match Major.ofCode? (b.toNat / 32) with
  | some major =>
    match Argument.ofInfo? (b.toNat % 32) with
    | some argument => .item major argument
    | none => if b.toNat % 32 = 31 then major.sequence?.elim .other .indefinite else .other
  | none =>
    if b = 0xf4 then .bool false
    else if b = 0xf5 then .bool true
    else if b = 0xf6 then .null
    else .other

/-- Whether an item is one of the negative integers with a long argument, of which one more byte
must be there before their type is known. -/
def looksAhead (b : UInt8) : Bool :=
  0x38 ≤ b && b ≤ 0x3b

end Cbor

namespace Reader

def position : Reader Nat := do
  return (← get).position

def take (n : Nat) : Reader Bytes := fun c =>
  match Bytes.split? n c.rest with
  | some (front, rest) => .ok (front, ⟨rest, c.position + n⟩)
  | none => .error (.cbor .endOfInput)

def skip : Reader Unit :=
  discard (take 1)

/-- What the next item is, as far as its initial byte tells; nothing is consumed. -/
def lead : Reader Cbor.Lead := fun c =>
  match c.rest with
  | [] => .error (.cbor .endOfInput)
  | b :: bs =>
    if Cbor.looksAhead b && bs.isEmpty then .error (.cbor .endOfInput)
    else .ok (Cbor.Lead.ofByte b, c)

/-- Consumes a head and gives its argument. -/
def argument (form : Cbor.Argument) : Reader Nat := do
  skip
  match form with
  | .inline n => return n
  | .following width => return Bytes.toNat (← take width)

/-- Consumes an integer, which must fit 64 bits with its sign. -/
def int (negative : Bool) (form : Cbor.Argument) : Reader Int64 := do
  let start ← position
  let n ← argument form
  if n < 9223372036854775808 then
    return Int64.ofInt (if negative then -1 - n else n)
  else
    throw (.cbor (.overflow n start))

/-- Consumes a byte string of definite length. -/
def bytes (form : Cbor.Argument) : Reader Bytes := do
  take (← argument form)

/-- Consumes a text of definite length. -/
def text (form : Cbor.Argument) : Reader String := do
  let start ← position
  match Bytes.toText? (← bytes form) with
  | some s => return s
  | none => throw (.cbor (.invalidText start))

/-- Reads so many items one after the other. -/
def times {α : Type} : Nat → Reader α → Reader (List α)
  | 0, _ => return []
  | n + 1, item => do
    let a ← item
    return a :: (← times n item)

/-- The number of items of the array that follows. -/
def arrayLength (name : String) : Reader Nat := do
  match ← lead with
  | .item .array form => argument form
  | .indefinite .arrays => throw (.indefiniteLength .arrays)
  | _ => throw (.unexpectedType name "array")

/-- The head of an array that must have exactly so many items. -/
def arrayOf (name : String) (expected : Nat) : Reader Unit := do
  let actual ← arrayLength name
  unless actual = expected do
    throw (.arrayLength name (toString expected) actual)

def bstr (field : String) : Reader Bytes := do
  match ← lead with
  | .item .bytes form => bytes form
  | .indefinite .bytes => throw (.indefiniteLength .bytes)
  | _ => throw (.unexpectedType field "bstr")

/-- Reads a byte string, or the null item in its place. -/
def bstrOrNil (field : String) : Reader (Option Bytes) := do
  match ← lead with
  | .null => skip; return none
  | .item .bytes form => return some (← bytes form)
  | .indefinite .bytes => throw (.indefiniteLength .bytes)
  | _ => throw (.unexpectedType field "bstr or nil")

/-- Reads a list of at least one item; a list without any is refused under the given name. -/
def listOf {α : Type} (field name : String) (item : Reader α) : Reader (List α) := do
  let count ← arrayLength field
  if count = 0 then
    throw (.arrayLength name "at least 1" 0)
  times count item

/-- Reads a whole byte string; bytes left over are refused. -/
def complete {α : Type} (name : String) (r : Reader α) (bs : Bytes) : Except DecodingError α := do
  let (a, c) ← r.run ⟨bs, 0⟩
  unless c.rest.isEmpty do
    throw (.trailingBytes name)
  return a

end Reader

end Cose
