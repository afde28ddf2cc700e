import Cose.Curve

namespace Cose

inductive Hash
  | sha256
  | sha384
  | sha512
deriving DecidableEq, Repr

/-- The length of a digest in bytes. -/
def Hash.digestLength : Hash → Nat
  | sha256 => 32
  | sha384 => 48
  | sha512 => 64

/-- The kind of primitive that carries out an algorithm. -/
inductive Family
  | ecdsa
  | edDsa
  | hmac
  | aesGcm
  | ecdh
  | direct
deriving DecidableEq, Repr

def Family.name : Family → String
  | ecdsa => "Ecdsa"
  | edDsa => "EdDsa"
  | hmac => "Hmac"
  | aesGcm => "AesGcm"
  | ecdh => "Ecdh"
  | direct => "Direct"

instance : ToString Family := ⟨Family.name⟩

/-- The supported algorithms of the COSE Algorithms registry. -/
inductive Algorithm
  | es256
  | es384
  | es512
  | edDsa
  | hmac256Truncated
  | hmac256
  | hmac384
  | hmac512
  | a128Gcm
  | a192Gcm
  | a256Gcm
  | direct
  | ecdhEsHkdf256
  | ecdhEsHkdf512
  | ecdhSsHkdf256
  | ecdhSsHkdf512
deriving DecidableEq, Repr

namespace Algorithm

/-- What the registry says about an algorithm. -/
structure Spec where
  id : Int64
  name : String
  family : Family
  /-- The types of key it can be used with. -/
  keyTypes : List KeyType := [.symmetric]
  /-- The curves on which such a key may lie. -/
  curves : List Curve := []
  hash : Option Hash := none
  /-- The length of the key, where the algorithm fixes one. -/
  keyLength : Option Nat := none
  /-- The length of the signature or tag, where the algorithm fixes one. -/
  outputLength : Option Nat := none
  /-- The length of the nonce of an authenticated cipher. -/
  ivLength : Option Nat := none
deriving DecidableEq, Repr

/-- The specification of a signature on one curve with coordinates of half the signature's length. -/
def Spec.ecdsa (id : Int64) (name : String) (curve : Curve) (hash : Hash) : Spec where
  id := id
  name := name
  family := .ecdsa
  keyTypes := [.ec2]
  curves := [curve]
  hash := some hash
  outputLength := some (2 * curve.coordinateLength)

/-- The specification of a keyed hash with a tag of the given length. -/
def Spec.hmac (id : Int64) (name : String) (hash : Hash) (tagLength : Nat) : Spec where
  id := id
  name := name
  family := .hmac
  hash := some hash
  outputLength := some tagLength

/-- The specification of an authenticated cipher with a key of the given length. -/
def Spec.gcm (id : Int64) (name : String) (keyLength : Nat) : Spec where
  id := id
  name := name
  family := .aesGcm
  keyLength := some keyLength
  outputLength := some 16
  ivLength := some 12

/-- The specification of a key agreement followed by a key derivation. -/
def Spec.ecdh (id : Int64) (name : String) (hash : Hash) : Spec where
  id := id
  name := name
  family := .ecdh
  keyTypes := [.ec2, .okp]
  curves := [.p256, .p384, .p521, .x25519, .x448]
  hash := some hash

/-- The registry's specification of an algorithm. -/
def spec : Algorithm → Spec
  | es256 => .ecdsa (-7) "ES256" .p256 .sha256
  | es384 => .ecdsa (-35) "ES384" .p384 .sha384
  | es512 => .ecdsa (-36) "ES512" .p521 .sha512
  | edDsa =>
    { id := -8, name := "EdDSA", family := .edDsa, keyTypes := [.okp], curves := [.ed25519, .ed448] }
  | hmac256Truncated => .hmac 4 "HMAC 256/64" .sha256 8
  | hmac256 => .hmac 5 "HMAC 256/256" .sha256 32
  | hmac384 => .hmac 6 "HMAC 384/384" .sha384 48
  | hmac512 => .hmac 7 "HMAC 512/512" .sha512 64
  | a128Gcm => .gcm 1 "A128GCM" 16
  | a192Gcm => .gcm 2 "A192GCM" 24
  | a256Gcm => .gcm 3 "A256GCM" 32
  | direct => { id := -6, name := "direct", family := .direct }
  | ecdhEsHkdf256 => .ecdh (-25) "ECDH-ES + HKDF-256" .sha256
  | ecdhEsHkdf512 => .ecdh (-26) "ECDH-ES + HKDF-512" .sha512
  | ecdhSsHkdf256 => .ecdh (-27) "ECDH-SS + HKDF-256" .sha256
  | ecdhSsHkdf512 => .ecdh (-28) "ECDH-SS + HKDF-512" .sha512

/-- All algorithms, in the order of the registry. -/
def all : List Algorithm :=
  [es256, es384, es512, edDsa, hmac256Truncated, hmac256, hmac384, hmac512, a128Gcm, a192Gcm,
    a256Gcm, direct, ecdhEsHkdf256, ecdhEsHkdf512, ecdhSsHkdf256, ecdhSsHkdf512]

def id (alg : Algorithm) : Int64 := alg.spec.id

def name (alg : Algorithm) : String := alg.spec.name

def family (alg : Algorithm) : Family := alg.spec.family

def ofId? (id : Int64) : Option Algorithm :=
  all.find? (·.id == id)

/-- The length of each half of a fixed-width ECDSA signature. -/
def fieldLength (alg : Algorithm) : Option Nat :=
  match alg.family with
  | .ecdsa => alg.spec.outputLength.map (· / 2)
  | _ => none

/-- The nonce length of an authenticated cipher, twelve bytes unless the registry says otherwise. -/
def ivLength (alg : Algorithm) : Nat :=
  alg.spec.ivLength.getD 12

instance : ToString Algorithm := ⟨fun alg => s!"{alg.name} ({alg.id})"⟩

@[simp] theorem ofId?_id (alg : Algorithm) : ofId? alg.id = some alg := by
  cases alg <;> decide

theorem id_of_ofId? {i : Int64} {alg : Algorithm} (h : ofId? i = some alg) : alg.id = i := by
  simpa using List.find?_some h

end Algorithm

end Cose
