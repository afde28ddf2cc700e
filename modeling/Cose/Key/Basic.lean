import Cose.Error
import Cose.Key.Material
import Cose.LabelMap.Reader

namespace Cose

/-- A key whose parameters obey the rules of its kind. Labels without a meaning for the kind are
kept as they came. -/
structure Key where
  keyId : Option Bytes
  /-- The identifier of the algorithm to which the key is restricted. -/
  algorithm : Option Int64
  /-- The declared operations, none of them meaning no restriction. -/
  operations : List KeyOperation
  baseIv : Option Bytes
  material : Key.Material
  extra : LabelMap
  sound : material.check = .ok ()
  unreserved : ∀ l ∈ extra.labels, material.kind.reserves l = false

namespace Key

def keyType (key : Key) : KeyType := key.material.kind.keyType

def curve? (key : Key) : Option Curve := key.material.curve?

/-- Puts a key together if its parameters obey the rules. -/
def make (keyId : Option Bytes) (algorithm : Option Int64) (operations : List KeyOperation)
    (baseIv : Option Bytes) (material : Material) (extra : LabelMap)
    (unreserved : ∀ l ∈ extra.labels, material.kind.reserves l = false) : Except KeyError Key :=
  match sound : material.check with
  | .ok () => .ok { keyId, algorithm, operations, baseIv, material, extra, sound, unreserved }
  | .error e => .error e

/-- The entries under the common labels. -/
def commonEntries (key : Key) : List (Label × Value) :=
  (.int Parameter.keyType, .int key.keyType.id) :: Material.bytesEntry Parameter.keyId key.keyId
    ++ key.algorithm.toList.map (fun i => (.int Parameter.algorithm, .int i))
    ++ (if key.operations.isEmpty then []
      else [(.int Parameter.operations, .array (key.operations.map fun op => .int op.id))])
    ++ Material.bytesEntry Parameter.baseIv key.baseIv

/-- All entries in the order in which they are written: common labels, labels of the kind, others in
deterministic order. -/
def entries (key : Key) : List (Label × Value) :=
  key.commonEntries ++ key.material.entries ++ key.extra.entries

/-- The key as a map with its entries in their order. -/
def encode (key : Key) : Bytes :=
  Cbor.head .map key.entries.length ++ key.entries.flatMap fun e => e.1.encode ++ e.2.encode

def bytesAt (m : LabelMap) (label : Int64) : Except KeyError (Option Bytes) :=
  match m.get? label with
  | none => .ok none
  | some v =>
    match v.bytes? with
    | some bs => .ok (some bs)
    | none => .error (.invalidParameter label "bstr")

def intAt (m : LabelMap) (label : Int64) : Except KeyError (Option Int64) :=
  match m.get? label with
  | none => .ok none
  | some v =>
    match v.int? with
    | some i => .ok (some i)
    | none => .error (.invalidParameter label "int")

/-- The operation that an item of the list of operations names. -/
def operationOf (item : Value) : Except KeyError KeyOperation :=
  match item.int? with
  | none => .error (.invalidParameter Parameter.operations "array of int")
  | some id =>
    match KeyOperation.ofId? id with
    | some op => .ok op
    | none => .error (.unsupportedOperation id)

def operationsAt (m : LabelMap) : Except KeyError (List KeyOperation) :=
  match m.get? Parameter.operations with
  | none => .ok []
  | some v =>
    match v.array? with
    | some items => items.mapM operationOf
    | none => .error (.invalidParameter Parameter.operations "array of int")

/-- The kind of key that the key type stands for. -/
def kindAt (m : LabelMap) : Except KeyError Kind := do
  let some id ← intAt m Parameter.keyType | throw .missingKeyType
  match (KeyType.ofId? id).bind Kind.ofKeyType? with
  | some kind => return kind
  | none => throw (.unsupportedKeyType id)

/-- The curve, which must belong to the key type. -/
def curveAt (m : LabelMap) (keyType : KeyType) : Except KeyError Curve := do
  let some id ← intAt m Parameter.curve | throw .missingCurve
  let some curve := Curve.ofId? id | throw (.unsupportedCurve id keyType)
  Material.checkCurve curve keyType
  return curve

/-- The bytes under a label, none of them counting as a missing entry. -/
def materialAt (m : LabelMap) (label : Int64) : Except KeyError (Option Bytes) := do
  return (← bytesAt m label).filter (!·.isEmpty)

/-- The parameters of a key of the given kind. -/
def Material.ofMap (m : LabelMap) : Kind → Except KeyError Material
  | .ec2 => do
    let curve ← curveAt m .ec2
    let x ← materialAt m Parameter.x
    let y ← materialAt m Parameter.y
    let d ← materialAt m Parameter.d
    return .ec2 curve x y d
  | .okp => do
    let curve ← curveAt m .okp
    let x ← materialAt m Parameter.x
    let d ← materialAt m Parameter.d
    return .okp curve x d
  | .symmetric => do
    let some k ← bytesAt m Parameter.k | throw (.missingMaterial "k")
    return .symmetric k

/-- The entries of a map to which a kind of key gives no meaning. -/
def extraOf (m : LabelMap) (kind : Kind) : LabelMap := m.filter (!kind.reserves ·)

theorem extraOf_unreserved (m : LabelMap) (kind : Kind) :
    ∀ l ∈ (extraOf m kind).labels, kind.reserves l = false := by
  intro l hl
  obtain ⟨e, he, rfl⟩ := List.mem_map.mp hl
  simpa using (List.mem_filter.mp he).2

/-- The key that a map of parameters stands for. -/
def ofMap (m : LabelMap) : Except KeyError Key := do
  let kind ← kindAt m
  let keyId ← bytesAt m Parameter.keyId
  let algorithm ← intAt m Parameter.algorithm
  let operations ← operationsAt m
  let baseIv ← bytesAt m Parameter.baseIv
  let material ← Material.ofMap m kind
  make keyId algorithm operations baseIv material (extraOf m material.kind)
    (extraOf_unreserved m material.kind)

/-- The key that a byte string stands for. -/
def decode (bs : Bytes) : Except Error Key := do
  if bs.isEmpty then
    throw (.decoding .empty)
  let m ← Reader.complete "COSE_Key" (LabelMap.read "COSE_Key") bs
  ofMap m

end Key

end Cose
