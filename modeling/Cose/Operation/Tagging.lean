import Cose.Message.Draft
import Cose.Key.Role
import Cose.Operation.PublicKey
import Cose.Operation.Selection

namespace Cose

namespace Tagging

/-- The protected header to be written, and the tag over it and the content. -/
def create (p : Provider) (context : Aad.Context) (key : Key)
    (protectedMap unprotected : LabelMap) (payload : Bytes) (o : Options) :
    Session (Bytes × Bytes) := do
  let alg ← Selection.toProduce .tag o.algorithm protectedMap unprotected key
  let header := ProtectedHeader.ofMap (Selection.record alg protectedMap unprotected)
  let content ← Content.resolve (some payload) o.detached
  let data ← (Aad.mac context header.bytes o.externalAad content).encode
  let k ← Key.required "k" key.material.k?
  let tag ← Session.ask p (.mac alg k data)
  return (header.bytes, tag)

/-- Whether a tag over some data is the key's. -/
def check (p : Provider) (key : Key) (alg : Algorithm) (data tag : Bytes) : Session Unit := do
  let k ← Key.required "k" key.material.k?
  Session.ask p (.macVerify alg k data tag)

end Tagging

namespace Mac0

/-- Makes a message with a tag over its content. Content is embedded unless it is empty, in which
case the detached content of the options counts. -/
def create (p : Provider) (key : MacKey) (protectedMap unprotected : LabelMap) (payload : Bytes)
    (o : Options) : Session Mac0 := do
  let (header, tag) ← Tagging.create p .mac0 key.key protectedMap unprotected payload o
  Message.Draft.build (k := .mac0)
    { protectedSlot := .bytes header, unprotected, content := .ofContent payload, token := some tag }

def verify (p : Provider) (key : MacKey) (m : Mac0) (o : Options) : Session Unit := do
  let alg ← Selection.toCheck .tag o.algorithm m.toHeaders key.key
  let data ← m.toBeMaced o.externalAad o.detached
  Tagging.check p key.key alg data m.tag

end Mac0

namespace Mac

/-- Makes a message with a tag over its content for some recipients. -/
def create (p : Provider) (key : MacKey) (protectedMap unprotected : LabelMap) (payload : Bytes)
    (recipients : List Recipient) (o : Options) : Session Mac := do
  Message.Draft.nonempty "recipients" recipients
  let (header, tag) ← Tagging.create p .mac key.key protectedMap unprotected payload o
  Message.Draft.build (k := .mac)
    { protectedSlot := .bytes header, unprotected, content := .ofContent payload, token := some tag,
      parts := recipients }

def verify (p : Provider) (key : MacKey) (m : Mac) (o : Options) : Session Unit := do
  let alg ← Selection.toCheck .tag o.algorithm m.toHeaders key.key
  let data ← m.toBeMaced o.externalAad o.detached
  Tagging.check p key.key alg data m.tag

end Mac

end Cose
