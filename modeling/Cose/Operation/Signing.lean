import Cose.Message.Draft
import Cose.Key.Role
import Cose.Operation.PublicKey
import Cose.Operation.Selection

namespace Cose

namespace Signing

/-- The field length by which signatures have to be converted, if they have to. -/
def conversion (p : Provider) (alg : Algorithm) : Option Nat :=
  match p.form with
  | .der => alg.fieldLength
  | .fixed => none

/-- A signature by the key in the form in which it travels. -/
def create (p : Provider) (key : Key) (alg : Algorithm) (data : Bytes) : Session Bytes := do
  let curve ← key.requiredCurve
  let d ← Key.required "d" key.material.d?
  let signature ← Session.ask p (.sign alg curve d data)
  match conversion p alg with
  | some length => Ecdsa.fixedOfDer signature length
  | none => return signature

/-- Whether a signature in the form in which it travels is the key's. -/
def check (p : Provider) (key : Key) (alg : Algorithm) (data signature : Bytes) :
    Session Unit := do
  let curve ← key.requiredCurve
  let point ← key.publicPoint p curve "d"
  let signature ← match conversion p alg with
    | some length => Ecdsa.derOfFixed signature length
    | none => pure signature
  Session.ask p (.verify alg { point with curve } data signature)

end Signing

namespace Sign1

/-- Signs content. Content is embedded in the message unless it is empty, in which case the detached
content of the options is signed. -/
def sign (p : Provider) (key : SigningKey) (protectedMap unprotected : LabelMap) (payload : Bytes)
    (o : Options) : Session Sign1 := do
  let alg ← Selection.toProduce .signature o.algorithm protectedMap unprotected key.key
  let header := ProtectedHeader.ofMap (Selection.record alg protectedMap unprotected)
  let content ← Content.resolve (some payload) o.detached
  let data ← (Aad.signature1 header.bytes o.externalAad content).encode
  let signature ← Signing.create p key.key alg data
  Message.Draft.build (k := .sign1)
    { protectedSlot := .bytes header.bytes, unprotected, content := .ofContent payload,
      token := some signature }

def verify (p : Provider) (key : SigningKey) (m : Sign1) (o : Options) : Session Unit := do
  let alg ← Selection.toCheck .signature o.algorithm m.toHeaders key.key
  let data ← m.toBeSigned o.externalAad o.detached
  Signing.check p key.key alg data m.signature

end Sign1

/-- One who signs a message: a key with headers of its own. -/
structure Signer where
  key : SigningKey
  /-- The algorithm, with precedence over that of the options. -/
  algorithm : Option Algorithm := none
  protectedMap : LabelMap := .empty
  unprotected : LabelMap := .empty

/-- The signer's signature of content below the given body header. -/
def Signer.sign (s : Signer) (p : Provider) (body content : Bytes) (o : Options) :
    Session Signature := do
  let alg ← Selection.toProduce .signature (s.algorithm <|> o.algorithm) s.protectedMap
    s.unprotected s.key.key
  let header := ProtectedHeader.ofMap (Selection.record alg s.protectedMap s.unprotected)
  let data ← (Aad.signature body header.bytes o.externalAad content).encode
  let signature ← Signing.create p s.key.key alg data
  Message.Draft.build (k := .signature)
    { protectedSlot := .bytes header.bytes, unprotected := s.unprotected, token := some signature }

namespace Sign

/-- Signs content once for each signer. -/
def sign (p : Provider) (protectedMap unprotected : LabelMap) (payload : Bytes)
    (signers : List Signer) (o : Options) : Session Sign := do
  Message.Draft.nonempty "signatures" signers
  let content ← Content.resolve (some payload) o.detached
  let header := ProtectedHeader.ofMap protectedMap
  let signatures ← signers.mapM fun s => s.sign p header.bytes content o
  Message.Draft.build (k := .sign)
    { protectedSlot := .bytes header.bytes, unprotected, content := .ofContent payload,
      parts := signatures }

/-- Verifies the signature at a place in the list. -/
def verify (p : Provider) (key : SigningKey) (m : Sign) (index : Nat) (o : Options) :
    Session Unit :=
  match m.signatures[index]? with
  | none => .ofExcept (.error (.noSuchSignature index m.signatures.length))
  | some s => do
    let alg ← Selection.toCheck .signature o.algorithm s.toHeaders key.key
    let data ← m.toBeSigned s o.externalAad o.detached
    Signing.check p key.key alg data s.signature

end Sign

end Cose
