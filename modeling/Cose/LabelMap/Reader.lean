import Cose.Cbor.Reader
import Cose.LabelMap

namespace Cose

/-- How many levels a value may nest. -/
def Value.maxDepth : Nat := 16

def Label.read (field : String) : Reader Label := do
  match ← Reader.lead with
  | .item .unsigned form => return .int (← Reader.int false form)
  | .item .negative form => return .int (← Reader.int true form)
  | .item .text form => return .text (← Reader.text form)
  | _ => throw (.unexpectedType field "int or tstr label")

namespace LabelMap

/-- Reads so many entries into a map; a label that is already there is refused after its value. -/
def readEntries (field : String) (item : Reader Value) : Nat → LabelMap → Reader LabelMap
  | 0, m => return m
  | n + 1, m => do
    let l ← Label.read field
    let v ← item
    if m.contains l then
      throw (.duplicateLabel l)
    readEntries field item n (m.insert l v)

/-- Reads a map whose values are read by `item`. -/
def readWith (field : String) (item : Reader Value) : Reader LabelMap := do
  match ← Reader.lead with
  | .item .map form => readEntries field item (← Reader.argument form) empty
  | .indefinite .maps => throw (.indefiniteLength .maps)
  | _ => throw (.unexpectedType field "map")

end LabelMap

/-- Reads a value that may nest so many levels. -/
def Value.readWithin (field : String) : (levels : Nat) → Reader Value
  | 0 => throw (.nestingTooDeep "header value" maxDepth)
  | levels + 1 => do
    match ← Reader.lead with
    | .item .unsigned form => return .int (← Reader.int false form)
    | .item .negative form => return .int (← Reader.int true form)
    | .item .bytes form => return .bytes (← Reader.bytes form)
    | .item .text form => return .text (← Reader.text form)
    | .item .array form =>
      return .array (← Reader.times (← Reader.argument form) (readWithin field levels))
    | .item .map _ => return .map (← LabelMap.readWith field (readWithin field levels))
    | .item .tag form =>
      let tag ← Reader.argument form
      return .tagged (UInt64.ofNat tag) (← readWithin field levels)
    | .bool b => Reader.skip; return .bool b
    | .null => Reader.skip; return .null
    | .indefinite items => throw (.indefiniteLength items)
    | .other => throw (.unexpectedType field "int, bstr, tstr, array, map, bool, null or tag")

namespace LabelMap

def read (field : String) : Reader LabelMap :=
  readWith field (Value.readWithin field Value.maxDepth)

/-- The map that a protected header's bytes stand for; no bytes stand for the empty map. -/
def decodeHeader (bs : Bytes) : Except DecodingError LabelMap :=
  if bs.isEmpty then return empty
  else Reader.complete "protected header map" (read "protected header") bs

end LabelMap

end Cose
