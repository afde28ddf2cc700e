namespace Cose

/-- What a key may be used to do. -/
inductive KeyOperation
  | sign
  | verify
  | encrypt
  | decrypt
  | wrapKey
  | unwrapKey
  | deriveKey
  | deriveBits
  | macCreate
  | macVerify
deriving DecidableEq, Repr

namespace KeyOperation

/-- All operations, by ascending identifier. -/
def all : List KeyOperation :=
  [sign, verify, encrypt, decrypt, wrapKey, unwrapKey, deriveKey, deriveBits, macCreate, macVerify]

def id : KeyOperation → Int64
  | sign => 1
  | verify => 2
  | encrypt => 3
  | decrypt => 4
  | wrapKey => 5
  | unwrapKey => 6
  | deriveKey => 7
  | deriveBits => 8
  | macCreate => 9
  | macVerify => 10

def ofId? (id : Int64) : Option KeyOperation :=
  all.find? (·.id == id)

def name : KeyOperation → String
  | sign => "Sign"
  | verify => "Verify"
  | encrypt => "Encrypt"
  | decrypt => "Decrypt"
  | wrapKey => "WrapKey"
  | unwrapKey => "UnwrapKey"
  | deriveKey => "DeriveKey"
  | deriveBits => "DeriveBits"
  | macCreate => "MacCreate"
  | macVerify => "MacVerify"

instance : ToString KeyOperation := ⟨name⟩

@[simp] theorem ofId?_id (op : KeyOperation) : ofId? op.id = some op := by
  cases op <;> decide

theorem id_of_ofId? {i : Int64} {op : KeyOperation} (h : ofId? i = some op) : op.id = i := by
  simpa using List.find?_some h

end KeyOperation

end Cose
