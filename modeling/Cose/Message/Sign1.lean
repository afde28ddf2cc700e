import Cose.Aad
import Cose.Content
import Cose.Header

namespace Cose

/-- Content with one signature. -/
structure Sign1 extends Headers where
  payload : Option Bytes
  signature : Bytes

namespace Sign1

def name : String := "COSE_Sign1"

def encode (m : Sign1) : Bytes :=
  Cbor.head .array 4 ++ m.toHeaders.encode ++ Cbor.bytesOrNull m.payload ++ Cbor.bytes m.signature

def read : Reader Sign1 := do
  Reader.arrayOf name 4
  let headers ← Headers.read
  let payload ← Reader.bstrOrNil "payload"
  let signature ← Reader.bstr "signature"
  return { headers with payload, signature }

/-- The bytes that the signature covers. -/
def toBeSigned (m : Sign1) (external : Bytes) (detached : Option Bytes) : Except Error Bytes := do
  let payload ← Content.resolve m.payload detached
  (Aad.signature1 m.protectedHeader.bytes external payload).encode

end Sign1

end Cose
