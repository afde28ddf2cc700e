import Cose.Aad
import Cose.Content
import Cose.Message.Recipient

namespace Cose

/-- An encrypted content. -/
structure Encrypt0 extends Headers where
  ciphertext : Option Bytes

namespace Encrypt0

def name : String := "COSE_Encrypt0"

def encode (m : Encrypt0) : Bytes :=
  Cbor.head .array 3 ++ m.toHeaders.encode ++ Cbor.bytesOrNull m.ciphertext

def read : Reader Encrypt0 := do
  Reader.arrayOf name 3
  let headers ← Headers.read
  let ciphertext ← Reader.bstrOrNil "ciphertext"
  return { headers with ciphertext }

/-- The bytes that are authenticated besides the content. -/
def associatedData (m : Encrypt0) (external : Bytes) : Except Error Bytes := do
  (Aad.encryption .encrypt0 m.protectedHeader.bytes external).encode

end Encrypt0

/-- An encrypted content with the recipients of its key. -/
structure Encrypt extends Headers where
  ciphertext : Option Bytes
  recipients : List Recipient

namespace Encrypt

def name : String := "COSE_Encrypt"

def encode (m : Encrypt) : Bytes :=
  Cbor.head .array 4 ++ m.toHeaders.encode ++ Cbor.bytesOrNull m.ciphertext
    ++ Recipient.encodeList m.recipients

/-- Reads the array, with recipients that nest at most so many levels. -/
def read (maxDepth : Nat) : Reader Encrypt := do
  Reader.arrayOf name 4
  let headers ← Headers.read
  let ciphertext ← Reader.bstrOrNil "ciphertext"
  let recipients ← Recipient.readList maxDepth
  return { headers with ciphertext, recipients }

/-- The bytes that are authenticated besides the content. -/
def associatedData (m : Encrypt) (external : Bytes) : Except Error Bytes := do
  (Aad.encryption .encrypt m.protectedHeader.bytes external).encode

end Encrypt

end Cose
