import SignalNet.Geometry

/-!
# Scalars

The real-valued signals of a network are computed with *scalars*.  Everything
above this module, from the operators to the compiler, is written against the
class `Scalar`, so that one and the same network can be run in double
precision and be reasoned about in exact arithmetic.

A scalar type knows two notions of sameness, and they must not be confused:

* `Scalar.canonical` picks one representative of the scalars that structural
  sharing may identify.  In double precision it forgets the sign of zero and
  the payload of a NaN.
* `Scalar.compare?` is the numeric comparison.  It answers `none` when the two
  scalars are unordered, which happens only if one of them is no number.

Elementary functions and rigid geometry are operations of the scalars as well,
since libraries compute them.  Nothing is assumed of them here; what they are in
double precision is said where doubles are made scalars.
-/

namespace SignalNet

/-- The arithmetic of real-valued signals. -/
class Scalar (α : Type) extends Add α, Sub α, Mul α, Div α, Neg α, Zero α, One α where
  /-- Equality of representations. -/
  decEq : DecidableEq α
  /-- The scalar nearest to `m / 10 ^ e`. -/
  decimal : (m e : Nat) → α
  /-- Numeric comparison, `none` for unordered scalars. -/
  compare? : α → α → Option Ordering
  /-- The representative that structural sharing uses. -/
  canonical : α → α
  /-- Neither infinite nor a NaN. -/
  isFinite : α → Bool
  /-- The scalar nearest to an integer. -/
  ofInteger : Int64 → α
  /-- The nearest integer: halves go away from zero, values out of range to
  the nearest end of the range, and a NaN goes to zero. -/
  round : α → Int64
  abs : α → α
  sqrt : α → α
  sin : α → α
  cos : α → α
  tan : α → α
  asin : α → α
  acos : α → α
  atan : α → α
  /-- The angle of the point `(x, y)`, called as `atan2 y x`. -/
  atan2 : α → α → α
  /-- Euclidean length. -/
  norm : Vec3 α → α
  dot : Vec3 α → Vec3 α → α
  cross : Vec3 α → Vec3 α → Vec3 α
  /-- The rotation by roll, pitch and yaw. -/
  ofAngles : Vec3 α → Quaternion α
  /-- Roll, pitch and yaw of a rotation. -/
  angles : Quaternion α → Vec3 α
  /-- Two motions one after the other, called as `compose after before`. -/
  compose : Pose α → Pose α → Pose α
  /-- The motion back. -/
  inverse : Pose α → Pose α
  /-- The moved point. -/
  apply : Pose α → Vec3 α → Vec3 α

namespace Scalar

variable {α : Type} [Scalar α]

instance (priority := low) instDecidableEq : DecidableEq α :=
  Scalar.decEq

/-- Numerically less. -/
def lt (a b : α) : Bool :=
  compare? a b == some .lt

/-- Numerically less or equal. -/
def le (a b : α) : Bool :=
  compare? a b == some .lt || compare? a b == some .eq

/-- Numerically equal. -/
def eqv (a b : α) : Bool :=
  compare? a b == some .eq

/-- A NaN is unordered even with itself. -/
def isNaN (a : α) : Bool :=
  (compare? a a).isNone

/-- The lesser of two scalars, and the second if they are equal; an operand
that is a NaN is ignored. -/
def minNum (a b : α) : α :=
  match compare? a b with
  | some .lt => a
  | some _ => b
  | none => if isNaN a then b else a

/-- The greater of two scalars, and the second if they are equal; an operand
that is a NaN is ignored. -/
def maxNum (a b : α) : α :=
  match compare? a b with
  | some .gt => a
  | some _ => b
  | none => if isNaN a then b else a

/-- The seconds in a number of milliseconds. -/
def milliseconds (x : α) : α :=
  x * decimal 1 3

/-- Two scalars that structural sharing identifies. -/
def same (a b : α) : Bool :=
  decide (canonical a = canonical b)

end Scalar

/-- The pose with a position and angles of roll, pitch and yaw. -/
def Pose.ofParts {α : Type} [Scalar α] (position angles : Vec3 α) : Pose α :=
  ⟨position, Scalar.ofAngles angles⟩

end SignalNet
