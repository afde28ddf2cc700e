import Cose.Key.Basic

namespace Cose.Key

/-- A key restricted to an algorithm is used with that one only. -/
def checkDeclared (key : Key) (alg : Algorithm) : Except KeyError Unit :=
  match key.algorithm with
  | some id => if id = alg.id then .ok () else .error (.algorithmMismatch id alg.id)
  | none => .ok ()

/-- What about the key does not suit the algorithm. -/
def misfit? (key : Key) (alg : Algorithm) : Option Misfit :=
  if !alg.spec.keyTypes.contains key.keyType then some (.keyType key.keyType)
  else match key.curve?.filter (!alg.spec.curves.contains ·) with
    | some curve => some (.curve curve)
    | none =>
      match alg.spec.keyLength, key.material.k? with
      | some expected, some k =>
        if k.length = expected then none else some (.keyLength expected k.length)
      | _, _ => none

/-- The key's type, curve and length must suit the algorithm. -/
def checkSuited (key : Key) (alg : Algorithm) : Except KeyError Unit :=
  match key.misfit? alg with
  | some reason => .error (.algorithmNotAllowed alg reason)
  | none => .ok ()

/-- A key that declares operations is used for those only. -/
def checkOperation (key : Key) (op : KeyOperation) : Except KeyError Unit :=
  if key.operations.isEmpty || key.operations.contains op then .ok ()
  else .error (.operationNotAllowed op)

/-- Whether the key can be used with the algorithm for the operation. -/
def checkFor (key : Key) (alg : Algorithm) (op : KeyOperation) : Except KeyError Unit := do
  key.checkDeclared alg
  key.checkSuited alg
  key.checkOperation op

end Cose.Key
