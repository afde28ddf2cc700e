import Cose.Message

namespace Cose.Message

/-- A protected header given as a map or as bytes. -/
inductive ProtectedSlot
  | unset
  | map (m : LabelMap)
  | bytes (bs : Bytes)

namespace ProtectedSlot

/-- Fills the slot with a map, unless it holds bytes. -/
def setMap (m : LabelMap) : ProtectedSlot → Except DraftError ProtectedSlot
  | bytes _ => .error (.conflictingFields "protected")
  | _ => .ok (map m)

/-- Fills the slot with bytes, unless it holds a map. -/
def setBytes (bs : Bytes) : ProtectedSlot → Except DraftError ProtectedSlot
  | map _ => .error (.conflictingFields "protected")
  | _ => .ok (bytes bs)

def resolve : ProtectedSlot → Except Error ProtectedHeader
  | unset => .error (.draft (.missingField "protected"))
  | map m => .ok (.ofMap m)
  | bytes bs => (ProtectedHeader.ofBytes bs : Except DecodingError ProtectedHeader)

end ProtectedSlot

/-- Content that is embedded or travels on its own. -/
inductive ContentSlot
  | unset
  | embedded (bs : Bytes)
  | detached
deriving DecidableEq, Repr

namespace ContentSlot

/-- Content to embed; content that is empty travels on its own. -/
def ofContent (bs : Bytes) : ContentSlot :=
  if bs.isEmpty then detached else embedded bs

/-- Fills the slot of the given name with content to embed, unless the content is detached. -/
def embed (field : String) (bs : Bytes) : ContentSlot → Except DraftError ContentSlot
  | detached => .error (.conflictingFields field)
  | _ => .ok (embedded bs)

/-- Marks the content of the slot of the given name as detached, unless there is content in it. -/
def detach (field : String) : ContentSlot → Except DraftError ContentSlot
  | embedded _ => .error (.conflictingFields field)
  | _ => .ok detached

/-- What the slot of the given name holds. -/
def resolve (field : String) : ContentSlot → Except DraftError (Option Bytes)
  | unset => .error (.missingField field)
  | embedded bs => .ok (some bs)
  | detached => .ok none

end ContentSlot

namespace Kind

/-- What a list that a structure of the kind ends with is made of. -/
@[reducible] def Part : Kind → Type
  | sign => Signature
  | mac | encrypt | recipient => Recipient
  | sign1 | signature | mac0 | encrypt0 => Empty

/-- The name of the slot whose content may travel on its own. -/
def content? : Kind → Option String
  | sign1 | sign | mac0 | mac => some "payload"
  | encrypt0 | encrypt => some "ciphertext"
  | signature | recipient => none

/-- The name of the byte string that the structure must hold. -/
def token? : Kind → Option String
  | sign1 | signature => some "signature"
  | mac0 | mac => some "tag"
  | recipient => some "ciphertext"
  | sign | encrypt0 | encrypt => none

end Kind

/-- The fields collected for a structure. -/
structure Draft (k : Kind) where
  protectedSlot : ProtectedSlot := .unset
  unprotected : LabelMap := .empty
  content : ContentSlot := .unset
  token : Option Bytes := none
  parts : List k.Part := []

namespace Draft

variable {k : Kind}

/-- One field given to a draft. -/
inductive Step (k : Kind)
  | protectedMap (m : LabelMap)
  | protectedBytes (bs : Bytes)
  | unprotected (m : LabelMap)
  | embed (field : String) (h : k.content? = some field) (bs : Bytes)
  | detach (field : String) (h : k.content? = some field)
  | token (field : String) (h : k.token? = some field) (bs : Bytes)
  | add (part : k.Part)
  | parts (list : List k.Part)

/-- Takes a field into the draft. -/
def apply (d : Draft k) : Step k → Except DraftError (Draft k)
  | .protectedMap m => do return { d with protectedSlot := ← d.protectedSlot.setMap m }
  | .protectedBytes bs => do return { d with protectedSlot := ← d.protectedSlot.setBytes bs }
  | .unprotected m => .ok { d with unprotected := m }
  | .embed field _ bs => do return { d with content := ← d.content.embed field bs }
  | .detach field _ => do return { d with content := ← d.content.detach field }
  | .token _ _ bs => .ok { d with token := some bs }
  | .add part => .ok { d with parts := d.parts ++ [part] }
  | .parts list => .ok { d with parts := list }

/-- Takes a field into the draft, which stays as it is if the field is refused. -/
def attempt (d : Draft k) (s : Step k) : Draft k :=
  match d.apply s with
  | .ok d' => d'
  | .error _ => d

/-- Takes fields into the draft one after the other, passing over those that are refused. -/
def run (d : Draft k) (steps : List (Step k)) : Draft k :=
  steps.foldl attempt d

def required {α : Type} (field : String) : Option α → Except DraftError α
  | some a => .ok a
  | none => .error (.missingField field)

def nonempty {α : Type} (field : String) (list : List α) : Except DraftError Unit :=
  if list.isEmpty then .error (.missingField field) else .ok ()

/-- Recipients that lie so many levels down must not nest deeper than messages are read. -/
def shallow (level : Nat) (rs : List Recipient) : Except DraftError Unit :=
  if level + Recipient.depthOfList rs > Recipient.maxDepth then
    .error (.recipientsTooDeep Recipient.maxDepth)
  else .ok ()

def headers (d : Draft k) : Except Error Headers := do
  return ⟨← d.protectedSlot.resolve, d.unprotected⟩

/-- The structure with the collected fields: content, then the required byte string, then lists,
then the headers are checked. -/
def build : {k : Kind} → Draft k → Except Error k.Body
  | .sign1, d => do
    let payload ← d.content.resolve "payload"
    let signature ← required "signature" d.token
    return { ← d.headers with payload, signature }
  | .sign, d => do
    let payload ← d.content.resolve "payload"
    nonempty "signatures" d.parts
    return { ← d.headers with payload, signatures := d.parts }
  | .signature, d => do
    let signature ← required "signature" d.token
    return { ← d.headers with signature }
  | .mac0, d => do
    let payload ← d.content.resolve "payload"
    let tag ← required "tag" d.token
    return { ← d.headers with payload, tag }
  | .mac, d => do
    let payload ← d.content.resolve "payload"
    let tag ← required "tag" d.token
    nonempty "recipients" d.parts
    shallow 0 d.parts
    return { ← d.headers with payload, tag, recipients := d.parts }
  | .encrypt0, d => do
    let ciphertext ← d.content.resolve "ciphertext"
    return { ← d.headers with ciphertext }
  | .encrypt, d => do
    let ciphertext ← d.content.resolve "ciphertext"
    nonempty "recipients" d.parts
    shallow 0 d.parts
    return { ← d.headers with ciphertext, recipients := d.parts }
  | .recipient, d => do
    let ciphertext ← required "ciphertext" d.token
    shallow 1 d.parts
    return { ← d.headers with ciphertext, recipients := d.parts }

end Draft

end Cose.Message
