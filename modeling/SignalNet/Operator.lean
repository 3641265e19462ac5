import SignalNet.Kind

/-!
# Operators and their typing

The operators that expressions and networks share.  Each has a name and a
typing rule: the kind of its result for the kinds of its operands, `none` if
it does not apply to them.  What the operators compute is in
`SignalNet.Operator.Eval`.
-/

namespace SignalNet

/-- Operators with one operand. -/
inductive UnaryOp
  | neg
  | abs
  | sqrt
  | sin
  | cos
  | tan
  | asin
  | acos
  | atan
  | not
  /-- Euclidean length of a vector. -/
  | norm
  /-- Inverse of a transform. -/
  | invert
  | toDouble
  /-- Nearest integer. -/
  | round
  deriving DecidableEq, Repr

/-- Operators with two operands. -/
inductive BinaryOp
  | add
  | sub
  | mul
  | div
  | min
  | max
  | atan2
  | and
  | or
  | xor
  | dot
  | cross
  /-- A transform applied to a vector. -/
  | apply
  deriving DecidableEq, Repr

/-- Comparisons. -/
inductive CompareOp
  | greater
  | greaterEq
  | less
  | lessEq
  | equal
  deriving DecidableEq, Repr

/-- What the clock of a network tells. -/
inductive ClockSignal
  /-- Seconds since the network was started. -/
  | time
  /-- Length of a cycle in seconds. -/
  | period
  deriving DecidableEq, Repr

def ClockSignal.name : ClockSignal → String
  | time => "time"
  | period => "period"

namespace UnaryOp

def all : List UnaryOp :=
  [neg, abs, sqrt, sin, cos, tan, asin, acos, atan, not, norm, invert, toDouble, round]

def name : UnaryOp → String
  | neg => "neg"
  | abs => "abs"
  | sqrt => "sqrt"
  | sin => "sin"
  | cos => "cos"
  | tan => "tan"
  | asin => "asin"
  | acos => "acos"
  | atan => "atan"
  | not => "not"
  | norm => "norm"
  | invert => "invert"
  | toDouble => "to_double"
  | round => "round"

/-- The kind of the result. -/
def resultKind? : UnaryOp → Kind → Option Kind
  | neg, .double => some .double
  | neg, .integer => some .integer
  | neg, .array n => some (.array n)
  | neg, .vector => some .vector
  | abs, .double => some .double
  | abs, .integer => some .integer
  | sqrt, .double => some .double
  | sin, .double => some .double
  | cos, .double => some .double
  | tan, .double => some .double
  | asin, .double => some .double
  | acos, .double => some .double
  | atan, .double => some .double
  | not, .boolean => some .boolean
  | norm, .vector => some .double
  | invert, .transform => some .transform
  | toDouble, .integer => some .double
  | round, .double => some .integer
  | _, _ => none

end UnaryOp

namespace BinaryOp

def all : List BinaryOp :=
  [add, sub, mul, div, min, max, atan2, and, or, xor, dot, cross, apply]

def name : BinaryOp → String
  | add => "add"
  | sub => "sub"
  | mul => "mul"
  | div => "div"
  | min => "min"
  | max => "max"
  | atan2 => "atan2"
  | and => "and"
  | or => "or"
  | xor => "xor"
  | dot => "dot"
  | cross => "cross"
  | apply => "apply"

/-- The operands may change places.  Multiplication commutes for numbers only:
transforms do not commute. -/
def isCommutative : BinaryOp → Kind → Bool
  | add, _ | min, _ | max, _ | and, _ | or, _ | xor, _ | dot, _ => true
  | mul, k => k.isNumeric
  | _, _ => false

/-- The kind of the result. -/
def resultKind? : BinaryOp → Kind → Kind → Option Kind
  | add, .double, .double => some .double
  | add, .integer, .integer => some .integer
  | add, .array m, .array n => if m = n then some (.array m) else none
  | add, .vector, .vector => some .vector
  | sub, .double, .double => some .double
  | sub, .integer, .integer => some .integer
  | sub, .array m, .array n => if m = n then some (.array m) else none
  | sub, .vector, .vector => some .vector
  | mul, .double, .double => some .double
  | mul, .integer, .integer => some .integer
  | mul, .array n, .double => some (.array n)
  | mul, .vector, .double => some .vector
  | mul, .transform, .transform => some .transform
  | div, .double, .double => some .double
  | div, .integer, .integer => some .integer
  | div, .array n, .double => some (.array n)
  | div, .vector, .double => some .vector
  | min, .double, .double => some .double
  | min, .integer, .integer => some .integer
  | max, .double, .double => some .double
  | max, .integer, .integer => some .integer
  | atan2, .double, .double => some .double
  | and, .boolean, .boolean => some .boolean
  | or, .boolean, .boolean => some .boolean
  | xor, .boolean, .boolean => some .boolean
  | dot, .vector, .vector => some .double
  | cross, .vector, .vector => some .vector
  | apply, .transform, .vector => some .vector
  | _, _, _ => none

end BinaryOp

namespace CompareOp

def all : List CompareOp :=
  [greater, greaterEq, less, lessEq, equal]

def name : CompareOp → String
  | greater => "greater"
  | greaterEq => "greater_eq"
  | less => "less"
  | lessEq => "less_eq"
  | equal => "equal"

/-- The kind of the result.  Numbers compare in every way, booleans for
equality only. -/
def resultKind? : CompareOp → Kind → Kind → Option Kind
  | _, .double, .double => some .boolean
  | _, .integer, .integer => some .boolean
  | equal, .boolean, .boolean => some .boolean
  | _, _, _ => none

/-- Whether an ordering of the operands makes the comparison true. -/
def holds : CompareOp → Ordering → Bool
  | greater, o => o == .gt
  | greaterEq, o => o != .lt
  | less, o => o == .lt
  | lessEq, o => o != .gt
  | equal, o => o == .eq

end CompareOp

end SignalNet
