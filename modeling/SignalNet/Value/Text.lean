import SignalNet.Decimal.Layout
import SignalNet.Value
import SignalNet.Scalar.Double

/-!
# Texts of values

`Value.text` is how a value appears inside a sentence, and `Value.argumentText`
how it appears in the argument list of a simulation message.
-/

namespace SignalNet

open Decimal (Layout)

/-- Texts separated by a comma and a space. -/
def commaSeparated (texts : List String) : String :=
  ", ".intercalate texts

/-- Three numbers in parentheses. -/
def Vec3.text (v : Vec3 Float) : String :=
  "(" ++ commaSeparated ([v.x, v.y, v.z].map Layout.sentence.write) ++ ")"

/-- An array in brackets; its elements are written as arguments. -/
def arrayText (xs : List Float) : String :=
  "[" ++ commaSeparated (xs.map Layout.argument.write) ++ "]"

namespace Value

/-- A value inside a sentence.  A transform shows its position and its
roll, pitch and yaw. -/
def text : Value Float → String
  | double x => Layout.sentence.write x
  | boolean b => toString b
  | integer n => toString n.toInt
  | array xs => arrayText xs
  | vector v => v.text
  | transform p => "[" ++ p.position.text ++ " rpy" ++ p.rotation.angles.text ++ "]"

/-- A value in an argument list, tagged with its kind.  Vectors and transforms
have no such text. -/
def argumentText? : Value Float → Option String
  | double x => some ("Double(" ++ Layout.argument.write x ++ ")")
  | boolean b => some ("Boolean(" ++ toString b ++ ")")
  | integer n => some ("Integer(" ++ toString n.toInt ++ ")")
  | array xs => some ("DoubleArray(" ++ arrayText xs ++ ")")
  | vector _ | transform _ => none

end Value

/-- An argument list, if all its values have a text. -/
def argumentsText? (args : List (Value Float)) : Option String :=
  (args.mapM Value.argumentText?).map fun texts => "[" ++ commaSeparated texts ++ "]"

end SignalNet
