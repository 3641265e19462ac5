import SignalNet.Operator
import SignalNet.Value

/-!
# What operators compute

Evaluation of the operators on values.  Host-side evaluation, folding and the
simulator all use these functions, so they agree on every value.  A result of
`none` means that the operands do not fit, or that an integer quotient does
not exist.
-/

namespace SignalNet

variable {α : Type} [Scalar α]

/-- Evaluate an operator with one operand. -/
def UnaryOp.eval? : UnaryOp → Value α → Option (Value α)
  | .neg, .double x => some (.double (-x))
  | .neg, .integer n => some (.integer (-n))
  | .neg, .array xs => some (.array (xs.map (-·)))
  | .neg, .vector v => some (.vector v.neg)
  | .abs, .double x => some (.double (Scalar.abs x))
  | .abs, .integer n => some (.integer n.abs)
  | .sqrt, .double x => some (.double (Scalar.sqrt x))
  | .sin, .double x => some (.double (Scalar.sin x))
  | .cos, .double x => some (.double (Scalar.cos x))
  | .tan, .double x => some (.double (Scalar.tan x))
  | .asin, .double x => some (.double (Scalar.asin x))
  | .acos, .double x => some (.double (Scalar.acos x))
  | .atan, .double x => some (.double (Scalar.atan x))
  | .not, .boolean b => some (.boolean !b)
  | .norm, .vector v => some (.double (Scalar.norm v))
  | .invert, .transform p => some (.transform (Scalar.inverse p))
  | .toDouble, .integer n => some (.double (Scalar.ofInteger n))
  | .round, .double x => some (.integer (Scalar.round x))
  | _, _ => none

/-- The quotient of two integers, rounded toward zero.  It does not exist for
divisor zero, nor where it would leave the range of integers. -/
def quotient? (a b : Int64) : Option Int64 :=
  if b = 0 ∨ (a = Int64.minValue ∧ b = -1) then none else some (a / b)

/-- Evaluate an operator with two operands. -/
def BinaryOp.eval? : BinaryOp → Value α → Value α → Option (Value α)
  | .add, .double x, .double y => some (.double (x + y))
  | .add, .integer m, .integer n => some (.integer (m + n))
  | .add, .array xs, .array ys =>
    if xs.length = ys.length then some (.array (List.zipWith (· + ·) xs ys)) else none
  | .add, .vector v, .vector w => some (.vector (v.add w))
  | .sub, .double x, .double y => some (.double (x - y))
  | .sub, .integer m, .integer n => some (.integer (m - n))
  | .sub, .array xs, .array ys =>
    if xs.length = ys.length then some (.array (List.zipWith (· - ·) xs ys)) else none
  | .sub, .vector v, .vector w => some (.vector (v.sub w))
  | .mul, .double x, .double y => some (.double (x * y))
  | .mul, .integer m, .integer n => some (.integer (m * n))
  | .mul, .array xs, .double y => some (.array (xs.map (· * y)))
  | .mul, .vector v, .double y => some (.vector (v.scale y))
  | .mul, .transform p, .transform q => some (.transform (Scalar.compose p q))
  | .div, .double x, .double y => some (.double (x / y))
  | .div, .integer m, .integer n => (quotient? m n).map .integer
  | .div, .array xs, .double y => some (.array (xs.map (· / y)))
  | .div, .vector v, .double y => some (.vector (v.divide y))
  | .min, .double x, .double y => some (.double (Scalar.minNum x y))
  | .min, .integer m, .integer n => some (.integer (Min.min m n))
  | .max, .double x, .double y => some (.double (Scalar.maxNum x y))
  | .max, .integer m, .integer n => some (.integer (Max.max m n))
  | .atan2, .double x, .double y => some (.double (Scalar.atan2 x y))
  | .and, .boolean a, .boolean b => some (.boolean (a && b))
  | .or, .boolean a, .boolean b => some (.boolean (a || b))
  | .xor, .boolean a, .boolean b => some (.boolean (a ^^ b))
  | .dot, .vector v, .vector w => some (.double (Scalar.dot v w))
  | .cross, .vector v, .vector w => some (.vector (Scalar.cross v w))
  | .apply, .transform p, .vector v => some (.vector (Scalar.apply p v))
  | _, _, _ => none

/-- Evaluate a comparison.  Unordered doubles compare false in every way. -/
def CompareOp.eval? : CompareOp → Value α → Value α → Option (Value α)
  | op, .double x, .double y => some (.boolean ((Scalar.compare? x y).any op.holds))
  | op, .integer m, .integer n => some (.boolean (op.holds (compare m n)))
  | .equal, .boolean a, .boolean b => some (.boolean (a == b))
  | _, _, _ => none

/-- A number moved to the nearest end of the range from `lower` to `upper` if
it lies outside.  The upper end wins where the ends are in the wrong order. -/
def Value.limit? : (value lower upper : Value α) → Option (Value α)
  | .double x, .double lo, .double hi =>
    some (.double (Scalar.minNum (Scalar.maxNum x lo) hi))
  | .integer n, .integer lo, .integer hi => some (.integer (min (max n lo) hi))
  | _, _, _ => none

/-- The element at a position.  A transform has two: its position, and its
roll, pitch and yaw. -/
def Value.index? : Value α → Nat → Option (Value α)
  | .array xs, i => xs[i]?.map .double
  | .vector v, i => (v.get? i).map .double
  | .transform p, 0 => some (.vector p.position)
  | .transform p, 1 => some (.vector (Scalar.angles p.rotation))
  | _, _ => none

/-- An array from doubles. -/
def Value.pack? (parts : List (Value α)) : Option (Value α) :=
  (parts.mapM Value.asDouble?).map .array

/-- A composed value from its parts. -/
def Value.compose? : Composite → List (Value α) → Option (Value α)
  | .vector, [.double x, .double y, .double z] => some (.vector ⟨x, y, z⟩)
  | .transform, [.vector t, .vector r] => some (.transform (Pose.ofParts t r))
  | _, _ => none

/-- One of two values, chosen by a boolean. -/
def Value.select? : (condition ifTrue ifFalse : Value α) → Option (Value α)
  | .boolean c, t, f => some (if c then t else f)
  | _, _, _ => none

end SignalNet
