import Cose.Datum

namespace Cose

/-- A data item all of whose maps list their labels in ascending order. -/
structure Value where
  datum : Datum
  ordered : datum.Ordered

namespace Value

@[ext] theorem ext {v w : Value} (h : v.datum = w.datum) : v = w := by
  cases v
  cases w
  congr

def int (i : Int64) : Value := ⟨.int i, .int i⟩

def bytes (bs : Bytes) : Value := ⟨.bytes bs, .bytes bs⟩

def text (s : String) : Value := ⟨.text s, .text s⟩

def bool (b : Bool) : Value := ⟨.bool b, .bool b⟩

def null : Value := ⟨.null, .null⟩

def array (items : List Value) : Value :=
  ⟨.array (items.map datum), .array fun _ hd => by
    obtain ⟨v, _, rfl⟩ := List.mem_map.mp hd
    exact v.ordered⟩

def tagged (tag : UInt64) (v : Value) : Value :=
  ⟨.tagged tag v.datum, .tagged tag v.ordered⟩

instance : Coe Int64 Value := ⟨int⟩
instance : Coe Bytes Value := ⟨bytes⟩

def depth (v : Value) : Nat := v.datum.depth

/-- The value as a data item in deterministic form. -/
def encode (v : Value) : Bytes := v.datum.encode

def typeName (v : Value) : String := v.datum.typeName

def int? (v : Value) : Option Int64 :=
  match v.datum with
  | .int i => some i
  | _ => none

def bytes? (v : Value) : Option Bytes :=
  match v.datum with
  | .bytes bs => some bs
  | _ => none

def text? (v : Value) : Option String :=
  match v.datum with
  | .text s => some s
  | _ => none

def array? (v : Value) : Option (List Value) :=
  match v with
  | ⟨.array items, h⟩ => some (items.pmap Value.mk h.items)
  | _ => none

@[simp] theorem int?_int (i : Int64) : (int i).int? = some i := rfl

@[simp] theorem array?_array (items : List Value) : (array items).array? = some items := by
  simp only [array, array?, List.pmap_map, Option.some.injEq]
  exact (List.pmap_eq_map ..).trans (List.map_id' items)

theorem eq_int_of_int? {v : Value} {i : Int64} (h : v.int? = some i) : v = int i := by
  obtain ⟨d, hd⟩ := v
  cases d <;> simp [int?] at h
  subst h
  rfl

theorem eq_bytes_of_bytes? {v : Value} {bs : Bytes} (h : v.bytes? = some bs) : v = bytes bs := by
  obtain ⟨d, hd⟩ := v
  cases d <;> simp [bytes?] at h
  subst h
  rfl

theorem eq_array_of_array? {v : Value} {items : List Value} (h : v.array? = some items) :
    v = array items := by
  obtain ⟨d, hd⟩ := v
  cases d <;> simp [array?] at h
  subst h
  ext1
  simp [array, List.map_pmap]

end Value

end Cose
