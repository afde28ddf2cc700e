import Cose.Label

namespace Cose

/-- Why a single data item cannot be read. -/
inductive Cbor.Fault
  | endOfInput
  /-- The argument at a position does not fit a signed 64-bit integer. -/
  | overflow (argument position : Nat)
  /-- The text at a position is not well-formed UTF-8. -/
  | invalidText (position : Nat)
deriving DecidableEq, Repr

def Cbor.Fault.message : Cbor.Fault → String
  | endOfInput => "end of input bytes"
  | overflow argument position =>
    s!"{argument} overflows target type at position {position}: when converting u64 to i64"
  | invalidText position => s!"invalid utf-8 at position {position}"

/-- Kinds of item whose length may be left open, which no structure here allows. -/
inductive Sequence
  | bytes
  | text
  | arrays
  | maps
deriving DecidableEq, Repr

def Sequence.name : Sequence → String
  | bytes => "byte strings"
  | text => "text strings"
  | arrays => "arrays"
  | maps => "maps"

/-- Why a structure cannot be read. -/
inductive DecodingError
  | empty
  | cbor (fault : Cbor.Fault)
  | unexpectedType (field expected : String)
  | arrayLength (name expected : String) (actual : Nat)
  | unexpectedTag (name : String) (expected actual : Nat)
  | trailingBytes (name : String)
  | indefiniteLength (items : Sequence)
  | nestingTooDeep (name : String) (max : Nat)
  | duplicateLabel (label : Label)
deriving DecidableEq, Repr

def DecodingError.message : DecodingError → String
  | empty => "empty input"
  | cbor fault => "CBOR decode failed: " ++ fault.message
  | unexpectedType field expected => s!"{field}: expected {expected}"
  | arrayLength name expected actual =>
    s!"{name} array length was not {expected} (got {actual})"
  | unexpectedTag name expected actual =>
    s!"unexpected CBOR tag {actual} (expected {expected} for {name} or no tag)"
  | trailingBytes name => s!"trailing bytes after {name}"
  | indefiniteLength items => "indefinite-length " ++ items.name ++ " are not supported"
  | nestingTooDeep name max => s!"{name} nesting exceeds maximum depth {max}"
  | duplicateLabel label => "duplicate label " ++ label.display ++ " in map"

end Cose
