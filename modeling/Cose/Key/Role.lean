import Cose.Key.Basic

namespace Cose

namespace Key

/-- Whether a list of declared operations fits the usage. Only a list that is complete has to name
the operations of a joint usage together. -/
def checkOperations (usage : KeyUsage) (ops : List KeyOperation) (complete : Bool) :
    Except KeyError Unit :=
  if usage.accepts ops complete then .ok () else .error (.incompatibleOperations usage ops)

/-- Whether the key can serve the usage. -/
def checkUsage (key : Key) (usage : KeyUsage) : Except KeyError Unit :=
  if usage.supports key.keyType key.curve? then checkOperations usage key.operations true
  else .error (.incompatibleUsage usage key.keyType key.curve?)

end Key

/-- A key that can serve a usage. -/
structure RoleKey (usage : KeyUsage) where
  key : Key
  fits : key.checkUsage usage = .ok ()

abbrev SigningKey := RoleKey .signing

abbrev AgreementKey := RoleKey .keyAgreement

abbrev EncryptionKey := RoleKey .encryption

abbrev MacKey := RoleKey .mac

namespace RoleKey

/-- Takes a key into the usage if it can serve it. -/
def ofKey (usage : KeyUsage) (key : Key) : Except KeyError (RoleKey usage) :=
  match fits : key.checkUsage usage with
  | .ok () => .ok ⟨key, fits⟩
  | .error e => .error e

end RoleKey

end Cose
