import Cose.Aad
import Cose.Content
import Cose.Message.Recipient

namespace Cose

/-- Content with a tag. -/
structure Mac0 extends Headers where
  payload : Option Bytes
  tag : Bytes

namespace Mac0

def name : String := "COSE_Mac0"

def encode (m : Mac0) : Bytes :=
  Cbor.head .array 4 ++ m.toHeaders.encode ++ Cbor.bytesOrNull m.payload ++ Cbor.bytes m.tag

def read : Reader Mac0 := do
  Reader.arrayOf name 4
  let headers ← Headers.read
  let payload ← Reader.bstrOrNil "payload"
  let tag ← Reader.bstr "tag"
  return { headers with payload, tag }

/-- The bytes that the tag covers. -/
def toBeMaced (m : Mac0) (external : Bytes) (detached : Option Bytes) : Except Error Bytes := do
  let payload ← Content.resolve m.payload detached
  (Aad.mac .mac0 m.protectedHeader.bytes external payload).encode

end Mac0

/-- Content with a tag and the recipients of its key. -/
structure Mac extends Headers where
  payload : Option Bytes
  tag : Bytes
  recipients : List Recipient

namespace Mac

def name : String := "COSE_Mac"

def encode (m : Mac) : Bytes :=
  Cbor.head .array 5 ++ m.toHeaders.encode ++ Cbor.bytesOrNull m.payload ++ Cbor.bytes m.tag
    ++ Recipient.encodeList m.recipients

/-- Reads the array, with recipients that nest at most so many levels. -/
def read (maxDepth : Nat) : Reader Mac := do
  Reader.arrayOf name 5
  let headers ← Headers.read
  let payload ← Reader.bstrOrNil "payload"
  let tag ← Reader.bstr "tag"
  let recipients ← Recipient.readList maxDepth
  return { headers with payload, tag, recipients }

/-- The bytes that the tag covers. -/
def toBeMaced (m : Mac) (external : Bytes) (detached : Option Bytes) : Except Error Bytes := do
  let payload ← Content.resolve m.payload detached
  (Aad.mac .mac m.protectedHeader.bytes external payload).encode

end Mac

end Cose
