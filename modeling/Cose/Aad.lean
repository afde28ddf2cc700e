import Cose.Error

namespace Cose

/-- What an authenticated structure is for. -/
inductive Aad.Context
  | signature
  | signature1
  | counterSignature
  | mac
  | mac0
  | encrypt
  | encrypt0
  | encRecipient
  | macRecipient
  | recRecipient
deriving DecidableEq, Repr

namespace Aad.Context

def all : List Context :=
  [signature, signature1, counterSignature, mac, mac0, encrypt, encrypt0, encRecipient,
    macRecipient, recRecipient]

/-- The text with which a structure of this context begins. -/
def name : Context → String
  | signature => "Signature"
  | signature1 => "Signature1"
  | counterSignature => "CounterSignature"
  | mac => "MAC"
  | mac0 => "MAC0"
  | encrypt => "Encrypt"
  | encrypt0 => "Encrypt0"
  | encRecipient => "Enc_Recipient"
  | macRecipient => "Mac_Recipient"
  | recRecipient => "Rec_Recipient"

/-- Whether the structure holds a signer's protected header. -/
def hasSigner : Context → Bool
  | signature | counterSignature => true
  | _ => false

/-- Whether the structure ends with the content. -/
def hasPayload : Context → Bool
  | encrypt | encrypt0 | encRecipient | macRecipient | recRecipient => false
  | _ => true

end Aad.Context

/-- The parts of an authenticated structure. -/
structure Aad where
  context : Aad.Context
  bodyProtected : Bytes
  signProtected : Option Bytes := none
  externalAad : Bytes := []
  payload : Option Bytes := none
deriving DecidableEq, Repr

namespace Aad

/-- What a message with one signature signs. -/
def signature1 (body external payload : Bytes) : Aad :=
  { context := .signature1, bodyProtected := body, externalAad := external, payload := payload }

/-- What one of several signers signs. -/
def signature (body signer external payload : Bytes) : Aad :=
  { context := .signature, bodyProtected := body, signProtected := signer, externalAad := external,
    payload := payload }

/-- What a tag authenticates. -/
def mac (context : Context) (body external payload : Bytes) : Aad :=
  { context := context, bodyProtected := body, externalAad := external, payload := payload }

/-- What a ciphertext authenticates besides the content. -/
def encryption (context : Context) (body external : Bytes) : Aad :=
  { context := context, bodyProtected := body, externalAad := external }

/-- A part that must be there exactly in the contexts that have it. -/
def expect (field : String) (wanted : Bool) (part : Option Bytes) :
    Except DraftError (Option Bytes) :=
  if part.isSome = wanted then .ok part
  else if wanted then .error (.missingField field)
  else .error (.conflictingFields field)

/-- The structure as an array of its context and its parts. -/
def encode (a : Aad) : Except DraftError Bytes := do
  let signer ← expect "sign_protected" a.context.hasSigner a.signProtected
  let payload ← expect "payload" a.context.hasPayload a.payload
  let parts := a.bodyProtected :: signer.toList ++ a.externalAad :: payload.toList
  return Cbor.head .array (1 + parts.length) ++ Cbor.text a.context.name
    ++ parts.flatMap Cbor.bytes

end Aad

end Cose
