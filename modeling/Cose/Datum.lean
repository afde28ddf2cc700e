import Cose.Label

namespace Cose

/-- A data item: a map is the list of its entries. -/
inductive Datum
  | int (value : Int64)
  | bytes (value : Bytes)
  | text (value : String)
  | array (items : List Datum)
  | map (entries : List (Label × Datum))
  | bool (value : Bool)
  | null
  | tagged (tag : UInt64) (content : Datum)
deriving Repr

namespace Datum

/-- Every map in the item lists its labels in strictly ascending order. -/
inductive Ordered : Datum → Prop
  | int (i : Int64) : Ordered (.int i)
  | bytes (bs : Bytes) : Ordered (.bytes bs)
  | text (s : String) : Ordered (.text s)
  | array {items : List Datum} (h : ∀ d ∈ items, Ordered d) : Ordered (.array items)
  | map {entries : List (Label × Datum)} (ascending : entries.Pairwise (·.1 < ·.1))
      (h : ∀ e ∈ entries, Ordered e.2) : Ordered (.map entries)
  | bool (b : Bool) : Ordered (.bool b)
  | null : Ordered .null
  | tagged (tag : UInt64) {d : Datum} (h : Ordered d) : Ordered (.tagged tag d)

mutual

/-- How deep the item nests: one level, and below an array, a map or a tag those of its deepest
content. -/
def depth : Datum → Nat
  | array items => 1 + depthOfItems items
  | map entries => 1 + depthOfEntries entries
  | tagged _ d => 1 + d.depth
  | _ => 1

/-- The depth of the deepest of some items. -/
def depthOfItems : List Datum → Nat
  | [] => 0
  | d :: ds => max d.depth (depthOfItems ds)

/-- The depth of the deepest value of some entries. -/
def depthOfEntries : List (Label × Datum) → Nat
  | [] => 0
  | (_, d) :: es => max d.depth (depthOfEntries es)

end

mutual

/-- The item in deterministic form: shortest heads, and entries in the order in which they are
listed. -/
def encode : Datum → Bytes
  | int i => Cbor.int i
  | bytes bs => Cbor.bytes bs
  | text s => Cbor.text s
  | array items => Cbor.head .array items.length ++ encodeItems items
  | map entries => Cbor.head .map entries.length ++ encodeEntries entries
  | bool b => Cbor.bool b
  | null => Cbor.null
  | tagged tag d => Cbor.head .tag tag.toNat ++ d.encode

/-- Items one after the other. -/
def encodeItems : List Datum → Bytes
  | [] => []
  | d :: ds => d.encode ++ encodeItems ds

/-- Entries one after the other, each label before its value. -/
def encodeEntries : List (Label × Datum) → Bytes
  | [] => []
  | (l, d) :: es => l.encode ++ (d.encode ++ encodeEntries es)

end

/-- The short name of the item's type. -/
def typeName : Datum → String
  | int _ => "int"
  | bytes _ => "bstr"
  | text _ => "tstr"
  | array _ => "array"
  | map _ => "map"
  | bool _ => "bool"
  | null => "null"
  | tagged _ _ => "tag"

namespace Ordered

theorem items {xs : List Datum} (h : Ordered (.array xs)) : ∀ d ∈ xs, Ordered d := by
  cases h
  assumption

theorem entries {es : List (Label × Datum)} (h : Ordered (.map es)) : ∀ e ∈ es, Ordered e.2 := by
  cases h
  assumption

theorem labels {es : List (Label × Datum)} (h : Ordered (.map es)) :
    es.Pairwise (·.1 < ·.1) := by
  cases h
  assumption

theorem content {tag : UInt64} {d : Datum} (h : Ordered (.tagged tag d)) : Ordered d := by
  cases h
  assumption

end Ordered

end Datum

end Cose
