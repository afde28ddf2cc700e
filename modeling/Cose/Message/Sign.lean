import Cose.Aad
import Cose.Content
import Cose.Header

namespace Cose

/-- One signer's part of a message. -/
structure Signature extends Headers where
  signature : Bytes

namespace Signature

def name : String := "COSE_Signature"

def encode (s : Signature) : Bytes :=
  Cbor.head .array 3 ++ s.toHeaders.encode ++ Cbor.bytes s.signature

def read : Reader Signature := do
  Reader.arrayOf name 3
  let headers ← Headers.read
  let signature ← Reader.bstr "signature"
  return { headers with signature }

end Signature

/-- Content with signatures. -/
structure Sign extends Headers where
  payload : Option Bytes
  signatures : List Signature

namespace Sign

def name : String := "COSE_Sign"

def encode (m : Sign) : Bytes :=
  Cbor.head .array 4 ++ m.toHeaders.encode ++ Cbor.bytesOrNull m.payload
    ++ Cbor.head .array m.signatures.length ++ m.signatures.flatMap Signature.encode

def read : Reader Sign := do
  Reader.arrayOf name 4
  let headers ← Headers.read
  let payload ← Reader.bstrOrNil "payload"
  let signatures ← Reader.listOf "signatures" "COSE_Sign signatures" Signature.read
  return { headers with payload, signatures }

/-- The bytes that one of the signatures covers. -/
def toBeSigned (m : Sign) (s : Signature) (external : Bytes) (detached : Option Bytes) :
    Except Error Bytes := do
  let payload ← Content.resolve m.payload detached
  (Aad.signature m.protectedHeader.bytes s.protectedHeader.bytes external payload).encode

end Sign

end Cose
