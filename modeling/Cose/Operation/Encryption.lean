import Cose.Message.Draft
import Cose.Key.Role
import Cose.Operation.Nonce
import Cose.Operation.PublicKey

namespace Cose

/-- An encrypted message, with its ciphertext where that travels on its own. -/
structure Sealed (α : Type) where
  message : α
  detached : Option Bytes

namespace Encryption

/-- What encrypting yields: both headers as they are to be written, and the ciphertext. -/
structure Output where
  headerBytes : Bytes
  unprotected : LabelMap
  ciphertext : Bytes

/-- Encrypts content, or the detached content of the options if it is empty. -/
def create (p : Provider) (context : Aad.Context) (key : Key)
    (protectedMap unprotected : LabelMap) (plaintext : Bytes) (o : Options) : Session Output := do
  let alg ← Selection.toProduce .encryption o.algorithm protectedMap unprotected key
  let recorded := Selection.record alg protectedMap unprotected
  let content ← Content.resolve (some plaintext) o.detached
  let (iv, unprotected) ← Nonce.toEncrypt p key alg recorded unprotected o.iv
  let header := ProtectedHeader.ofMap recorded
  let aad ← (Aad.encryption context header.bytes o.externalAad).encode
  let k ← Key.required "k" key.material.k?
  let ciphertext ← Session.ask p (.encrypt alg k iv aad content)
  return ⟨header.bytes, unprotected, ciphertext⟩

/-- How a ciphertext is carried: on its own exactly if the plaintext was. -/
def slot (plaintext ciphertext : Bytes) : Message.ContentSlot × Option Bytes :=
  if plaintext.isEmpty then (.detached, some ciphertext) else (.embedded ciphertext, none)

/-- Decrypts an embedded ciphertext, or the detached content of the options. -/
def undo (p : Provider) (key : Key) (headers : Headers) (embedded : Option Bytes)
    (aad : Except Error Bytes) (o : Options) : Session Bytes := do
  let alg ← Selection.toCheck .encryption o.algorithm headers key
  let ciphertext ← Content.resolve embedded o.detached
  let iv ← Nonce.toDecrypt key alg headers.protectedHeader.map headers.unprotected o.iv
  let aad ← aad
  let k ← Key.required "k" key.material.k?
  Session.ask p (.decrypt alg k iv aad ciphertext)

end Encryption

namespace Encrypt0

/-- Encrypts content. A ciphertext of detached content is detached too. -/
def encrypt (p : Provider) (key : EncryptionKey) (protectedMap unprotected : LabelMap)
    (plaintext : Bytes) (o : Options) : Session (Sealed Encrypt0) := do
  let out ← Encryption.create p .encrypt0 key.key protectedMap unprotected plaintext o
  let (content, detached) := Encryption.slot plaintext out.ciphertext
  let message ← Message.Draft.build (k := .encrypt0)
    { protectedSlot := .bytes out.headerBytes, unprotected := out.unprotected, content }
  return ⟨message, detached⟩

def decrypt (p : Provider) (key : EncryptionKey) (m : Encrypt0) (o : Options) : Session Bytes :=
  Encryption.undo p key.key m.toHeaders m.ciphertext (m.associatedData o.externalAad) o

end Encrypt0

namespace Encrypt

/-- Encrypts content for some recipients. -/
def encrypt (p : Provider) (key : EncryptionKey) (protectedMap unprotected : LabelMap)
    (plaintext : Bytes) (recipients : List Recipient) (o : Options) :
    Session (Sealed Encrypt) := do
  Message.Draft.nonempty "recipients" recipients
  let out ← Encryption.create p .encrypt key.key protectedMap unprotected plaintext o
  let (content, detached) := Encryption.slot plaintext out.ciphertext
  let message ← Message.Draft.build (k := .encrypt)
    { protectedSlot := .bytes out.headerBytes, unprotected := out.unprotected, content,
      parts := recipients }
  return ⟨message, detached⟩

def decrypt (p : Provider) (key : EncryptionKey) (m : Encrypt) (o : Options) : Session Bytes :=
  Encryption.undo p key.key m.toHeaders m.ciphertext (m.associatedData o.externalAad) o

end Encrypt

end Cose
