namespace Cose

/-- The key types: octet key pairs, elliptic-curve points and symmetric keys, and the reserved
value zero. -/
inductive KeyType
  | reserved
  | okp
  | ec2
  | symmetric
deriving DecidableEq, Repr

namespace KeyType

/-- All key types, by ascending identifier. -/
def all : List KeyType := [reserved, okp, ec2, symmetric]

def id : KeyType → Int64
  | reserved => 0
  | okp => 1
  | ec2 => 2
  | symmetric => 4

def ofId? (id : Int64) : Option KeyType :=
  all.find? (·.id == id)

def name : KeyType → String
  | reserved => "Reserved"
  | okp => "OKP"
  | ec2 => "EC2"
  | symmetric => "Symmetric"

instance : ToString KeyType := ⟨name⟩

theorem id_of_ofId? {i : Int64} {t : KeyType} (h : ofId? i = some t) : t.id = i := by
  simpa using List.find?_some h

end KeyType

end Cose
