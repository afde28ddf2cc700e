import Cose.Algorithm
import Cose.Header

namespace Cose

/-- One for whom a content key is given, or who is to agree on it. -/
structure Recipient extends Headers where
  ciphertext : Bytes
  recipients : List Recipient

namespace Recipient

def name : String := "COSE_recipient"

/-- How many levels recipients nest unless a caller says otherwise. -/
def maxDepth : Nat := 8

/-- A recipient that uses a shared key as it is. -/
def direct (keyId : Bytes) : Recipient where
  protectedHeader := .empty
  unprotected := (LabelMap.empty.insert Header.algorithm (.int Algorithm.direct.id)).insert
    Header.keyId (.bytes keyId)
  ciphertext := []
  recipients := []

mutual

/-- How many levels of recipients there are, this one included. -/
def depth : Recipient → Nat
  | ⟨_, _, recipients⟩ => 1 + depthOfList recipients

/-- The depth of the deepest of some recipients. -/
def depthOfList : List Recipient → Nat
  | [] => 0
  | r :: rs => max r.depth (depthOfList rs)

end

mutual

/-- The recipient as an array; a list of further recipients is written only if there are any. -/
def encode : Recipient → Bytes
  | ⟨headers, ciphertext, []⟩ => Cbor.head .array 3 ++ headers.encode ++ Cbor.bytes ciphertext
  | ⟨headers, ciphertext, r :: rs⟩ =>
    Cbor.head .array 4 ++ headers.encode ++ Cbor.bytes ciphertext
      ++ Cbor.head .array (rs.length + 1) ++ r.encode ++ encodeItems rs

def encodeItems : List Recipient → Bytes
  | [] => []
  | r :: rs => r.encode ++ encodeItems rs

end

def encodeList (rs : List Recipient) : Bytes :=
  Cbor.head .array rs.length ++ encodeItems rs

/-- Reads a recipient below which so many levels, its own included, are left of at most `max`. -/
def readWithin (max : Nat) : (levels : Nat) → Reader Recipient
  | 0 => throw (.nestingTooDeep name max)
  | levels + 1 => do
    let parts ← Reader.arrayLength name
    unless parts = 3 || parts = 4 do
      throw (.arrayLength name "3 or 4" parts)
    let headers ← Headers.read
    let ciphertext ← Reader.bstr "ciphertext"
    let recipients ←
      if parts = 4 then Reader.listOf "recipients" "recipients" (readWithin max levels)
      else pure []
    return { headers with ciphertext, recipients }

/-- Reads a recipient that may nest so many levels. -/
def read (max : Nat) : Reader Recipient := readWithin max max

/-- Reads a list of recipients that may nest so many levels. -/
def readList (max : Nat) : Reader (List Recipient) :=
  Reader.listOf "recipients" "recipients" (read max)

/-- The key identifier, of which the protected header's has precedence. -/
def keyId? (r : Recipient) : Option Bytes :=
  r.protectedHeader.map.keyId? <|> r.unprotected.keyId?

/-- The algorithm, of which the protected header's has precedence. -/
def algorithm? (r : Recipient) : Option Int64 :=
  r.protectedHeader.map.algorithm? <|> r.unprotected.algorithm?

end Recipient

end Cose
