import Cose.Key.Role

namespace Cose.Key

/-- The parameters collected for a key of one kind; those that the kind does not have are not
looked at. -/
structure Draft where
  kind : Kind
  curve : Option Curve := none
  x : Option Bytes := none
  y : Option Bytes := none
  d : Option Bytes := none
  k : Option Bytes := none
  keyId : Option Bytes := none
  algorithm : Option Int64 := none
  operations : List KeyOperation := []
  baseIv : Option Bytes := none
  extra : LabelMap := .empty
  usage : Option KeyUsage := none
  unreserved : ∀ l ∈ extra.labels, kind.reserves l = false

namespace Draft

def empty (kind : Kind) : Draft where
  kind := kind
  unreserved := by simp [LabelMap.labels, LabelMap.empty]

def ofKey (key : Key) : Draft where
  kind := key.material.kind
  curve := key.material.curve?
  x := key.material.x?
  y := key.material.y?
  d := key.material.d?
  k := key.material.k?
  keyId := key.keyId
  algorithm := key.algorithm
  operations := key.operations
  baseIv := key.baseIv
  extra := key.extra
  unreserved := key.unreserved

/-- The draft with all parameters of a key, which must be of the given kind. -/
def ofKeyOfKind (kind : Kind) (key : Key) : Except KeyError Draft :=
  if key.material.kind = kind then .ok (ofKey key)
  else .error (.wrongKeyType kind.keyType key.keyType)

/-- One parameter given to a draft. -/
inductive Step
  | curve (c : Curve)
  | x (bs : Bytes)
  | y (bs : Bytes)
  | d (bs : Bytes)
  | k (bs : Bytes)
  | clearPrivate
  | usage (u : KeyUsage)
  | keyId (bs : Bytes)
  | algorithm (id : Int64)
  | addOperation (op : KeyOperation)
  | clearOperations
  | baseIv (bs : Bytes)
  | label (l : Label) (v : Value)

/-- Adds an operation unless it is there already; it must be one of the usage's, if there is one. -/
def addOperation (draft : Draft) (op : KeyOperation) : Except KeyError Draft := do
  if draft.operations.contains op then
    return draft
  let operations := draft.operations ++ [op]
  if let some u := draft.usage then
    checkOperations u operations false
  return { draft with operations }

/-- Puts an entry under a label to which the kind of key gives no meaning. -/
def putExtra (draft : Draft) (l : Label) (v : Value) (h : draft.kind.reserves l = false) : Draft :=
  { draft with
    extra := draft.extra.insert l v
    unreserved := by
      intro m hm
      obtain ⟨e, he, rfl⟩ := List.mem_map.mp hm
      rcases LabelMap.label_of_mem_insertEntry he with heq | he
      · rw [heq]
        exact h
      · exact draft.unreserved e.1 (List.mem_map.mpr ⟨e, he, rfl⟩) }

/-- Puts an entry under a label unless the kind of key gives it a meaning. -/
def setLabel (draft : Draft) (l : Label) (v : Value) : Except KeyError Draft :=
  match l with
  | .int i =>
    if h : draft.kind.reserves (.int i) = false then .ok (draft.putExtra (.int i) v h)
    else .error (.reservedLabel i)
  | .text s => .ok (draft.putExtra (.text s) v rfl)

def apply (draft : Draft) : Step → Except KeyError Draft
  | .curve c => .ok { draft with curve := some c }
  | .x bs => .ok { draft with x := some bs }
  | .y bs => .ok { draft with y := some bs }
  | .d bs => .ok { draft with d := some bs }
  | .k bs => .ok { draft with k := some bs }
  | .clearPrivate => .ok { draft with d := none }
  | .usage u => do
    checkOperations u draft.operations false
    return { draft with usage := some u }
  | .keyId bs => .ok { draft with keyId := some bs }
  | .algorithm id => .ok { draft with algorithm := some id }
  | .addOperation op => draft.addOperation op
  | .clearOperations => .ok { draft with operations := [] }
  | .baseIv bs => .ok { draft with baseIv := some bs }
  | .label l v => draft.setLabel l v

/-- Takes a parameter into the draft, which stays as it is if the parameter is refused. -/
def attempt (draft : Draft) (s : Step) : Draft :=
  match draft.apply s with
  | .ok draft' => draft'
  | .error _ => draft

/-- Takes parameters into the draft one after the other, passing over those that are refused. -/
def run (draft : Draft) (steps : List Step) : Draft :=
  steps.foldl attempt draft

/-- The parameters of the kind; an octet key counts empty ones as missing. -/
def material (draft : Draft) : Except KeyError Material :=
  match draft.kind with
  | .ec2 => do
    let some curve := draft.curve | throw .missingCurve
    return .ec2 curve draft.x draft.y draft.d
  | .okp => do
    let some curve := draft.curve | throw .missingCurve
    return .okp curve (draft.x.filter (!·.isEmpty)) (draft.d.filter (!·.isEmpty))
  | .symmetric => do
    let some k := draft.k | throw (.missingMaterial "k")
    return .symmetric k

theorem kind_of_material {draft : Draft} {m : Material} (h : draft.material = .ok m) :
    m.kind = draft.kind := by
  unfold material at h
  split at h <;> split at h <;> cases h <;> simp_all [Material.kind]

/-- The key with the collected parameters, as far as a usage is not concerned. -/
def buildUnrestricted (draft : Draft) : Except KeyError Key :=
  match h : draft.material with
  | .error e => .error e
  | .ok material =>
    make draft.keyId draft.algorithm draft.operations draft.baseIv material draft.extra
      (kind_of_material h ▸ draft.unreserved)

/-- The key with the collected parameters; it must be able to serve the usage, if there is one. -/
def build (draft : Draft) : Except KeyError Key := do
  let key ← draft.buildUnrestricted
  if let some u := draft.usage then
    key.checkUsage u
  return key

end Draft

end Cose.Key
