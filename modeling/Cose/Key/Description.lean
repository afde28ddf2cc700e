import Cose.Key.Material

namespace Cose.Key.Material

/-- Bytes between brackets, in decimal. -/
def describeBytes (bs : Bytes) : String :=
  "[" ++ ", ".intercalate (bs.map fun b => toString b.toNat) ++ "]"

/-- What is shown in place of secret bytes. -/
def redacted : String := "\"<redacted>\""

/-- A part that may be missing. -/
def describeOption (describe : Bytes → String) : Option Bytes → String
  | some bs => "Some(" ++ describe bs ++ ")"
  | none => "None"

/-- A name with its fields between braces. -/
def describeFields (name : String) (fields : List (String × String)) : String :=
  name ++ " \x7b " ++ ", ".intercalate (fields.map fun f => f.1 ++ ": " ++ f.2) ++ " \x7d"

/-- The parameters without their secrets. -/
def describe : Material → String
  | ec2 curve x y d =>
    describeFields "Ec2" [("curve", curve.word), ("x", describeOption describeBytes x),
      ("y", describeOption describeBytes y), ("d", describeOption (fun _ => redacted) d)]
  | okp curve x d =>
    describeFields "Okp" [("curve", curve.word), ("x", describeOption describeBytes x),
      ("d", describeOption (fun _ => redacted) d)]
  | symmetric _ => describeFields "Symmetric" [("k", redacted)]

end Cose.Key.Material
