import Cose.Bytes

namespace Cose.Der

def integerTag : UInt8 := 0x02

def sequenceTag : UInt8 := 0x30

/-- The number of bytes that hold a number. -/
def byteLength (n : Nat) : Nat := n.log2 / 8 + 1

/-- A length: itself if it is below 128, otherwise behind the number of its bytes. -/
def length (n : Nat) : Bytes :=
  if n < 128 then [UInt8.ofNat n]
  else UInt8.ofNat (128 + byteLength n) :: Bytes.ofNat (byteLength n) n

/-- An element: tag, length, content. -/
def element (tag : UInt8) (content : Bytes) : Bytes :=
  tag :: length content.length ++ content

/-- The content of an integer: its bytes, with room for a sign bit that is zero. -/
def integerContent (n : Nat) : Bytes :=
  Bytes.ofNat ((n.log2 + 1) / 8 + 1) n

def encodePair (r s : Nat) : Bytes :=
  element sequenceTag
    (element integerTag (integerContent r) ++ element integerTag (integerContent s))

/-- Reads a length that is written as shortly as it can be. -/
def readLength? : Bytes → Option (Nat × Bytes)
  | [] => none
  | b :: rest =>
    if b < 128 then some (b.toNat, rest)
    else do
      let (digits, rest) ← Bytes.split? (b.toNat - 128) rest
      let n := Bytes.toNat digits
      if 128 ≤ n ∧ digits.head? ≠ some 0 then some (n, rest) else none

def readElement? (tag : UInt8) : Bytes → Option (Bytes × Bytes)
  | [] => none
  | b :: rest =>
    if b = tag then do
      let (n, rest) ← readLength? rest
      Bytes.split? n rest
    else none

/-- The number that the content of an integer stands for, if it is not negative and not longer than
it has to be. -/
def integerOf? : Bytes → Option Nat
  | [] => none
  | [b] => if b < 128 then some b.toNat else none
  | b :: c :: rest =>
    if b < 128 ∧ (b = 0 → 128 ≤ c) then some (Bytes.toNat (b :: c :: rest)) else none

def readInteger? (bs : Bytes) : Option (Nat × Bytes) := do
  let (content, rest) ← readElement? integerTag bs
  return (← integerOf? content, rest)

/-- The two numbers of a sequence of two integers. -/
def decodePair? (bs : Bytes) : Option (Nat × Nat) := do
  let (content, []) ← readElement? sequenceTag bs | none
  let (r, rest) ← readInteger? content
  let (s, []) ← readInteger? rest | none
  return (r, s)

end Cose.Der
