import SignalNet.Scalar
import SignalNet.Scalar.Rigid

/-!
# Double precision

Networks run in IEEE double precision.  Elementary functions are those of the
machine's mathematical library.
-/

namespace SignalNet

/-- Numeric comparison of doubles, `none` if one of them is a NaN. -/
def Double.compare? (a b : Float) : Option Ordering :=
  if a < b then some .lt
  else if a == b then some .eq
  else if b < a then some .gt
  else none

/-- Both zeros share the positive one, and all NaNs share the default one. -/
def Double.canonical (a : Float) : Float :=
  if a == 0.0 then 0.0
  else if a.isNaN then Float.ofBits 0x7ff8000000000000
  else a

instance : Scalar Float where
  zero := 0.0
  one := 1.0
  decEq := inferInstance
  decimal m e := Float.ofScientific m true e
  compare? := Double.compare?
  canonical := Double.canonical
  isFinite := Float.isFinite
  ofInteger n := n.toFloat
  round a := a.round.toInt64
  abs := Float.abs
  sqrt := Float.sqrt
  sin := Float.sin
  cos := Float.cos
  tan := Float.tan
  asin := Float.asin
  acos := Float.acos
  atan := Float.atan
  atan2 := Float.atan2
  norm := Vec3.norm
  dot := Vec3.dot
  cross := Vec3.cross
  ofAngles := Quaternion.ofAngles
  angles := Quaternion.angles
  compose := Pose.mul
  inverse := Pose.inverse
  apply := Pose.apply

end SignalNet
