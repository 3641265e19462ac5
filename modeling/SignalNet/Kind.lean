/-!
# Kinds of signals

Every expression, every port and every value has one kind.  Kinds are what
typing computes with.
-/

namespace SignalNet

/-- The kinds of values that are composed of parts. -/
inductive Composite
  | vector
  | transform
  deriving DecidableEq, Repr

/-- The kind of a signal. -/
inductive Kind
  | double
  | boolean
  | integer
  /-- An array of doubles of fixed length. -/
  | array (length : Nat)
  | vector
  /-- A rigid motion. -/
  | transform
  deriving DecidableEq, Repr

/-- The kind of a composed value. -/
def Composite.kind : Composite → Kind
  | vector => .vector
  | transform => .transform

/-- The kinds of the parts that a composed value is built from: a vector from
three doubles, a transform from a position and from roll, pitch and yaw. -/
def Composite.parts : Composite → List Kind
  | vector => [.double, .double, .double]
  | transform => [.vector, .vector]

def Composite.text : Composite → String
  | vector => "vector"
  | transform => "transform"

namespace Kind

/-- How many elements can be read by index, for the kinds that have any. -/
def length? : Kind → Option Nat
  | array n => some n
  | vector => some 3
  | transform => some 2
  | _ => none

/-- The kind of an element read by index. -/
def element? : Kind → Option Kind
  | array _ => some double
  | vector => some double
  | transform => some vector
  | _ => none

def isNumeric : Kind → Bool
  | double | integer => true
  | _ => false

def text : Kind → String
  | double => "double"
  | boolean => "boolean"
  | integer => "integer"
  | array n => "double[" ++ toString n ++ "]"
  | vector => "vector"
  | transform => "transform"

/-- The kind with a given text.  A text fits at most one length of array, and
that length is among its digits. -/
def ofText? (s : String) : Option Kind :=
  let digits := String.ofList (s.toList.filter Char.isDigit)
  ([double, boolean, integer, vector, transform] ++ digits.toNat?.toList.map array).find?
    fun k => decide (k.text = s)

end Kind

end SignalNet
