import Cose.Bytes

namespace Cose.Aes

/-- A byte times the field's generator. -/
def double (x : UInt8) : UInt8 :=
  (x <<< 1) ^^^ (if x ≥ 0x80 then 0x1b else 0)

/-- The product of two bytes as field elements, one bit of the second after the other. -/
def multiply (x y : UInt8) : UInt8 :=
  ((List.range 8).foldl (fun (sum, term) i =>
    (if (y >>> UInt8.ofNat i) &&& 1 = 1 then sum ^^^ term else sum, double term)) (0, x)).1

/-- The inverse of a byte as a field element, zero for zero: its power with exponent 254. -/
def inverse (x : UInt8) : UInt8 :=
  (List.range 254).foldl (fun y _ => multiply y x) 1

def turnLeft (x : UInt8) (n : UInt8) : UInt8 :=
  (x <<< n) ||| (x >>> (8 - n))

/-- The substitute of a byte: an affine image of its inverse. -/
def substituteOf (x : UInt8) : UInt8 :=
  let y := inverse x
  y ^^^ turnLeft y 1 ^^^ turnLeft y 2 ^^^ turnLeft y 3 ^^^ turnLeft y 4 ^^^ 0x63

def substitutes : Vector UInt8 256 :=
  Vector.ofFn fun i => substituteOf (UInt8.ofNat i)

/-- The substitute of a byte, looked up. -/
def substitute (x : UInt8) : UInt8 :=
  substitutes.get x.toFin

/-- Sixteen bytes, one column of four after the other. -/
abbrev Block := Vector UInt8 16

namespace Block

/-- The first sixteen bytes of a string, with zeros for those that are missing. -/
def ofBytes (bs : Bytes) : Block :=
  Vector.ofFn fun i => bs.getD i 0

def xor (a b : Block) : Block :=
  Vector.zipWith (· ^^^ ·) a b

def substitute (b : Block) : Block :=
  b.map Aes.substitute

/-- Each row of the block turned by as many places as its number. -/
def shiftRows (b : Block) : Block :=
  Vector.ofFn fun i => b.get (5 * i)

/-- Each column of the block times a fixed matrix. -/
def mixColumns (b : Block) : Block :=
  Vector.ofFn fun i =>
    let row (k : Nat) : UInt8 := b.get (Fin.ofNat 16 (i / 4 * 4 + (i + k) % 4))
    double (row 0) ^^^ double (row 1) ^^^ row 1 ^^^ row 2 ^^^ row 3

end Block

/-- One word of the key schedule: the word before it, transformed at every whole key length, added
to the word one key length back. -/
def nextWord (keyWords i : Nat) (back last : Bytes) (constant : UInt8) : Bytes :=
  let turned : Bytes :=
    if i % keyWords = 0 then
      Bytes.xor ((last.drop 1 ++ last.take 1).map substitute) [constant, 0, 0, 0]
    else if keyWords > 6 ∧ i % keyWords = 4 then last.map substitute
    else last
  Bytes.xor back turned

/-- The key's words followed by so many more, starting with number `i`. -/
def expand (keyWords : Nat) : (count i : Nat) → (constant : UInt8) → Array Bytes → Array Bytes
  | 0, _, _, words => words
  | count + 1, i, constant, words =>
    let word := nextWord keyWords i (words.getD (i - keyWords) []) (words.getD (i - 1) []) constant
    let constant := if i % keyWords = 0 then double constant else constant
    expand keyWords count (i + 1) constant (words.push word)

/-- The blocks that are mixed in between the rounds, of which there are six more than words in the
key. -/
def roundKeys (key : Bytes) : List Block :=
  let keyWords := key.length / 4
  let start := (List.range keyWords).map fun i => (key.drop (4 * i)).take 4
  let words := expand keyWords (4 * (keyWords + 7) - keyWords) keyWords 1 start.toArray
  (List.range (keyWords + 7)).map fun i =>
    Block.ofBytes ((words.extract (4 * i) (4 * i + 4)).toList.flatten)

/-- The rounds after the first key has been mixed in; the last of them leaves the columns alone. -/
def rounds : List Block → Block → Block
  | [], b => b
  | [key], b => b.substitute.shiftRows.xor key
  | key :: keys, b => rounds keys (b.substitute.shiftRows.mixColumns.xor key)

/-- The cipher's image of a block under the given round keys. -/
def encrypt (keys : List Block) (b : Block) : Block :=
  match keys with
  | [] => b
  | key :: keys => rounds keys (b.xor key)

end Cose.Aes
