import Cose.Error.Crypto
import Cose.Error.Decoding
import Cose.Error.Key

namespace Cose

/-- What is wrong with the fields collected for a structure. -/
inductive DraftError
  | missingField (field : String)
  | conflictingFields (field : String)
  | recipientsTooDeep (max : Nat)
deriving DecidableEq, Repr

def DraftError.message : DraftError → String
  | missingField field => s!"missing required field: {field}"
  | conflictingFields field => s!"conflicting values supplied for {field}"
  | recipientsTooDeep max => s!"recipients nested deeper than {max} levels"

/-- Why embedded and detached content yield no content to protect. -/
inductive ContentFault
  | both
  | neither
deriving DecidableEq, Repr

def ContentFault.message : ContentFault → String
  | both => "both embedded and detached content were supplied"
  | neither => "no content was supplied"

inductive Error
  | decoding (cause : DecodingError)
  | key (cause : KeyError)
  | draft (cause : DraftError)
  | crypto (cause : CryptoError)
  | invalidPayload (fault : ContentFault)
  | missingHeader (name : String)
  | algorithmConflict (first second : Int64)
  | noSuchSignature (index count : Nat)
deriving DecidableEq, Repr

def Error.message : Error → String
  | decoding cause => cause.message
  | key cause => cause.message
  | draft cause => cause.message
  | crypto cause => cause.message
  | invalidPayload fault => "invalid payload: " ++ fault.message
  | missingHeader name => s!"missing {name} header"
  | algorithmConflict first second => s!"algorithm conflict: {first} vs {second}"
  | noSuchSignature index count =>
    s!"no signature at index {index} (message has {count})"

instance : MonadLift (Except DecodingError) (Except Error) := ⟨Except.mapError .decoding⟩
instance : MonadLift (Except KeyError) (Except Error) := ⟨Except.mapError .key⟩
instance : MonadLift (Except DraftError) (Except Error) := ⟨Except.mapError .draft⟩
instance : MonadLift (Except CryptoError) (Except Error) := ⟨Except.mapError .crypto⟩

end Cose
