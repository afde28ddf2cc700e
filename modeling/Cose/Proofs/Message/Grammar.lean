import Cose.Message
import Cose.Proofs.Message.Recipients

namespace Cose

open Cbor

/-- The items that stand for both headers: the protected one as a byte string that holds a map or
nothing, the unprotected one as a map. -/
inductive Headers.Written : Bytes → Headers → Prop
  | mk {b₁ b₂ : Bytes} {h : Headers} (protectedBytes : IsBytes b₁ h.protectedHeader.bytes)
      (unprotected : Value.Written b₂ (.map h.unprotected)) (sound : h.Sound) :
      Written (b₁ ++ b₂) h

/-- The arrays that stand for a content with one signature. -/
inductive Sign1.Written : Bytes → Sign1 → Prop
  | mk {hd b₁ b₂ b₃ : Bytes} {m : Sign1} (array : IsHead .array hd 4)
      (headers : Headers.Written b₁ m.toHeaders) (payload : IsBytesOrNull b₂ m.payload)
      (signature : IsBytes b₃ m.signature) : Written (hd ++ (b₁ ++ (b₂ ++ b₃))) m

/-- The arrays that stand for one signer's part. -/
inductive Signature.Written : Bytes → Signature → Prop
  | mk {hd b₁ b₂ : Bytes} {s : Signature} (array : IsHead .array hd 3)
      (headers : Headers.Written b₁ s.toHeaders) (signature : IsBytes b₂ s.signature) :
      Written (hd ++ (b₁ ++ b₂)) s

/-- The arrays that stand for a content with signatures. -/
inductive Sign.Written : Bytes → Sign → Prop
  | mk {hd b₁ b₂ b₃ : Bytes} {m : Sign} (array : IsHead .array hd 4)
      (headers : Headers.Written b₁ m.toHeaders) (payload : IsBytesOrNull b₂ m.payload)
      (signatures : IsList Signature.Written b₃ m.signatures) :
      Written (hd ++ (b₁ ++ (b₂ ++ b₃))) m

/-- The arrays that stand for a recipient. Only one that has recipients of its own has a fourth
item. -/
inductive Recipient.Written : Bytes → Recipient → Prop
  | leaf {hd b₁ b₂ c : Bytes} {h : Headers} (array : IsHead .array hd 3)
      (headers : Headers.Written b₁ h) (ciphertext : IsBytes b₂ c) :
      Written (hd ++ (b₁ ++ b₂)) ⟨h, c, []⟩
  | node {hd b₁ b₂ b₃ c : Bytes} {h : Headers} {rs : List Recipient}
      (array : IsHead .array hd 4) (headers : Headers.Written b₁ h) (ciphertext : IsBytes b₂ c)
      (recipients : IsList Written b₃ rs) : Written (hd ++ (b₁ ++ (b₂ ++ b₃))) ⟨h, c, rs⟩

/-- The arrays that stand for a content with a tag. -/
inductive Mac0.Written : Bytes → Mac0 → Prop
  | mk {hd b₁ b₂ b₃ : Bytes} {m : Mac0} (array : IsHead .array hd 4)
      (headers : Headers.Written b₁ m.toHeaders) (payload : IsBytesOrNull b₂ m.payload)
      (tag : IsBytes b₃ m.tag) : Written (hd ++ (b₁ ++ (b₂ ++ b₃))) m

/-- The arrays that stand for a content with a tag and the recipients of its key. -/
inductive Mac.Written : Bytes → Mac → Prop
  | mk {hd b₁ b₂ b₃ b₄ : Bytes} {m : Mac} (array : IsHead .array hd 5)
      (headers : Headers.Written b₁ m.toHeaders) (payload : IsBytesOrNull b₂ m.payload)
      (tag : IsBytes b₃ m.tag) (recipients : IsList Recipient.Written b₄ m.recipients) :
      Written (hd ++ (b₁ ++ (b₂ ++ (b₃ ++ b₄)))) m

/-- The arrays that stand for an encrypted content. -/
inductive Encrypt0.Written : Bytes → Encrypt0 → Prop
  | mk {hd b₁ b₂ : Bytes} {m : Encrypt0} (array : IsHead .array hd 3)
      (headers : Headers.Written b₁ m.toHeaders) (ciphertext : IsBytesOrNull b₂ m.ciphertext) :
      Written (hd ++ (b₁ ++ b₂)) m

/-- The arrays that stand for an encrypted content with the recipients of its key. -/
inductive Encrypt.Written : Bytes → Encrypt → Prop
  | mk {hd b₁ b₂ b₃ : Bytes} {m : Encrypt} (array : IsHead .array hd 4)
      (headers : Headers.Written b₁ m.toHeaders) (ciphertext : IsBytesOrNull b₂ m.ciphertext)
      (recipients : IsList Recipient.Written b₃ m.recipients) :
      Written (hd ++ (b₁ ++ (b₂ ++ b₃))) m

namespace Message

/-- The arrays that stand for a structure of a kind. -/
def WrittenArray : {k : Kind} → Bytes → k.Body → Prop
  | .sign1 => Sign1.Written
  | .sign => Sign.Written
  | .signature => Signature.Written
  | .mac0 => Mac0.Written
  | .mac => Mac.Written
  | .encrypt0 => Encrypt0.Written
  | .encrypt => Encrypt.Written
  | .recipient => Recipient.Written

/-- The items that stand for a structure: its array, which may follow the tag of its kind. -/
inductive Written {k : Kind} : Bytes → k.Body → Prop
  | array {b : Bytes} {m : k.Body} (h : WrittenArray b m) : Written b m
  | tagged {hd b : Bytes} {tag : Nat} {m : k.Body} (own : k.tag? = some tag)
      (tag : IsHead .tag hd tag) (h : WrittenArray b m) : Written (hd ++ b) m

end Message

end Cose
