import Cose.Bytes

namespace Cose.Cbor

/-- The major types of the items in use. -/
inductive Major
  | unsigned
  | negative
  | bytes
  | text
  | array
  | map
  | tag
deriving DecidableEq, Repr

/-- The number that stands for a major type in the top three bits of an initial byte. -/
def Major.code : Major → Nat
  | unsigned => 0
  | negative => 1
  | bytes => 2
  | text => 3
  | array => 4
  | map => 5
  | tag => 6

/-- The initial byte of a head: major type and additional information. -/
def initial (major : Major) (info : Nat) : UInt8 :=
  UInt8.ofNat (32 * major.code + info)

/-- The shortest head that announces a 64-bit argument. -/
def head (major : Major) (argument : Nat) : Bytes :=
  if argument < 24 then [initial major argument]
  else if argument < 256 then initial major 24 :: Bytes.ofNat 1 argument
  else if argument < 65536 then initial major 25 :: Bytes.ofNat 2 argument
  else if argument < 4294967296 then initial major 26 :: Bytes.ofNat 4 argument
  else initial major 27 :: Bytes.ofNat 8 argument

/-- An integer item: a negative number `n` is written as the argument `-1 - n`. -/
def int (n : Int64) : Bytes :=
  if 0 ≤ n then head .unsigned n.toInt.toNat else head .negative (-1 - n.toInt).toNat

def bytes (bs : Bytes) : Bytes :=
  head .bytes bs.length ++ bs

def text (s : String) : Bytes :=
  head .text (Bytes.ofText s).length ++ Bytes.ofText s

def bool (b : Bool) : Bytes :=
  if b then [0xf5] else [0xf4]

def null : Bytes :=
  [0xf6]

/-- A byte string, or the null item where there is none. -/
def bytesOrNull : Option Bytes → Bytes
  | some bs => bytes bs
  | none => null

end Cose.Cbor
