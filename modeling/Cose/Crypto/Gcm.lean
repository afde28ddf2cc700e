import Cose.Crypto.Aes
import Cose.Crypto.Sha2

namespace Cose.Gcm

/-- The number that reduces a product: the field's polynomial without its highest term, with the
lowest term in the first bit. -/
def reduction : BitVec 128 := 0xe1#128 <<< 120

/-- One step of a product: adds the current term if the next bit is set and doubles the term. -/
def productStep (x : BitVec 128) (acc : BitVec 128 × BitVec 128) (i : Nat) :
    BitVec 128 × BitVec 128 :=
  let (sum, term) := acc
  (if x.getMsbD i then sum ^^^ term else sum,
    if term.getLsbD 0 then (term >>> 1) ^^^ reduction else term >>> 1)

/-- The product of two blocks as field elements. -/
def product (x y : BitVec 128) : BitVec 128 :=
  ((List.range 128).foldl (productStep x) (0, y)).1

/-- Bytes as blocks, the last filled up with zeros. -/
def blocks (bs : Bytes) : List (BitVec 128) :=
  (Bytes.chunks 16 bs).map fun c =>
    BitVec.ofNat 128 (Bytes.toNat (c ++ List.replicate (16 - c.length) 0))

/-- The polynomial with the given blocks as coefficients, at the point `h`. -/
def hash (h : BitVec 128) (bs : List (BitVec 128)) : BitVec 128 :=
  bs.foldl (fun acc b => product (acc ^^^ b) h) 0

/-- The numbers of bits of associated data and ciphertext in one block. -/
def lengths (aad ciphertext : Bytes) : BitVec 128 :=
  BitVec.ofNat 64 (8 * aad.length) ++ BitVec.ofNat 64 (8 * ciphertext.length)

/-- The image under the cipher of the nonce with a counter. -/
def mask (keys : List Aes.Block) (iv : Bytes) (counter : Nat) : Bytes :=
  (Aes.encrypt keys (.ofBytes (iv ++ Bytes.ofNat 4 counter))).toList

/-- A string combined with the keystream, which turns content into ciphertext and back. -/
def combine (keys : List Aes.Block) (iv bs : Bytes) : Bytes :=
  (Bytes.chunks 16 bs).zipIdx.flatMap fun (c, i) => Bytes.xor c (mask keys iv (i + 2))

def tag (keys : List Aes.Block) (iv aad ciphertext : Bytes) : Bytes :=
  let h := BitVec.ofNat 128 (Bytes.toNat (Aes.encrypt keys (.ofBytes [])).toList)
  let sum := hash h (blocks aad ++ blocks ciphertext ++ [lengths aad ciphertext])
  Bytes.xor (Bytes.ofNat 16 sum.toNat) (mask keys iv 1)

/-- The ciphertext of some content, followed by its tag. -/
def encrypt (key iv aad plaintext : Bytes) : Bytes :=
  let keys := Aes.roundKeys key
  let ciphertext := combine keys iv plaintext
  ciphertext ++ tag keys iv aad ciphertext

/-- The content of a ciphertext, if the tag that follows it is the right one. -/
def decrypt? (key iv aad sealed : Bytes) : Option Bytes :=
  if sealed.length < 16 then none
  else
    let keys := Aes.roundKeys key
    let ciphertext := sealed.take (sealed.length - 16)
    if tag keys iv aad ciphertext = sealed.drop (sealed.length - 16) then
      some (combine keys iv ciphertext)
    else none

end Cose.Gcm
