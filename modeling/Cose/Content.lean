import Cose.Error

namespace Cose

instance : MonadLift (Except ContentFault) (Except Error) := ⟨Except.mapError .invalidPayload⟩

namespace Content

/-- The one of embedded and detached content that is there; empty content counts as missing. -/
def resolve (embedded detached : Option Bytes) : Except ContentFault Bytes :=
  match embedded.filter (!·.isEmpty), detached.filter (!·.isEmpty) with
  | some content, none | none, some content => .ok content
  | some _, some _ => .error .both
  | none, none => .error .neither

end Content

end Cose
