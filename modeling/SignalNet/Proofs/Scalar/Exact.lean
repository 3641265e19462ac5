import Mathlib.Algebra.Order.Field.Basic
import Mathlib.Algebra.Order.Ring.Rat
import Mathlib.Algebra.Field.Rat
import SignalNet.Expr.Form
import SignalNet.Scalar.Finite

/-!
# Exact scalars

Scalars are *exact* if they can be read as numbers of an ordered field in
which arithmetic and comparisons are what they are called
(`Scalar.Exact`).  Sharing then identifies nothing but equal scalars
(`Scalar.Exact.form_eq`).

The rational numbers are exact scalars (`Fraction.exact`).  They have no
roots and no angles, so those functions are left at zero, and rigid geometry
leaves everything in its place.
-/

namespace SignalNet

/-- A reading of scalars as numbers of an ordered field. -/
structure Scalar.Exact (α : Type) [Scalar α] (K : Type) [Field K] [LinearOrder K] where
  read : α → K
  injective : Function.Injective read
  zero : read 0 = 0
  one : read 1 = 1
  add : ∀ a b, read (a + b) = read a + read b
  sub : ∀ a b, read (a - b) = read a - read b
  mul : ∀ a b, read (a * b) = read a * read b
  div : ∀ a b, read (a / b) = read a / read b
  compare : ∀ a b, Scalar.compare? a b = some (Ord.compare (read a) (read b))
  canonical : ∀ a : α, Scalar.canonical a = a

namespace Scalar.Exact

variable {α : Type} [Scalar α] {K : Type} [Field K] [LinearOrder K] (reading : Exact α K)

/-! ### Comparisons -/

theorem lt_iff {a b : α} : Scalar.lt a b = true ↔ reading.read a < reading.read b := by
  simp [Scalar.lt, reading.compare, compare_lt_iff_lt]

theorem eqv_iff {a b : α} : Scalar.eqv a b = true ↔ reading.read a = reading.read b := by
  simp [Scalar.eqv, reading.compare]

theorem read_minNum (a b : α) :
    reading.read (Scalar.minNum a b) = min (reading.read a) (reading.read b) := by
  unfold Scalar.minNum
  rw [reading.compare]
  rcases lt_trichotomy (reading.read a) (reading.read b) with h | h | h
  · rw [compare_lt_iff_lt.mpr h, min_eq_left h.le]
  · rw [compare_eq_iff_eq.mpr h, h, min_self]
  · rw [compare_gt_iff_gt.mpr h, min_eq_right h.le]

theorem read_maxNum (a b : α) :
    reading.read (Scalar.maxNum a b) = max (reading.read a) (reading.read b) := by
  unfold Scalar.maxNum
  rw [reading.compare]
  rcases lt_trichotomy (reading.read a) (reading.read b) with h | h | h
  · rw [compare_lt_iff_lt.mpr h, max_eq_right h.le]
  · rw [compare_eq_iff_eq.mpr h, h, max_self]
  · rw [compare_gt_iff_gt.mpr h, max_eq_left h.le]

/-! ### Sharing -/

include reading in
theorem canonical_eq_id : (Scalar.canonical : α → α) = id :=
  funext reading.canonical

include reading in
theorem eq_of_same {a b : α} (h : Scalar.same a b = true) : a = b := by
  rw [← reading.canonical a, of_decide_eq_true h, reading.canonical]

include reading in
theorem value_canonical (v : Value α) : v.canonical = v := by
  unfold Value.canonical
  rw [reading.canonical_eq_id]
  cases v <;> simp [Value.map, Vec3.map, Pose.map, Quaternion.map]

include reading in
/-- Forms that are shared are equal. -/
theorem form_eq {form form' : Form α} (h : form.canonical = form'.canonical) : form = form' := by
  have hsame : ∀ form : Form α, form.canonical = form := by
    intro form
    cases form <;> simp [Form.canonical, reading.value_canonical]
  rw [← hsame form, h, hsame]

end Scalar.Exact

/-- Rational numbers as scalars. -/
def Fraction : Type :=
  ℚ

namespace Fraction

/-- Rounding goes to the nearest integer of the range. -/
instance : Scalar Fraction where
  toAdd := inferInstanceAs (Add ℚ)
  toSub := inferInstanceAs (Sub ℚ)
  toMul := inferInstanceAs (Mul ℚ)
  toDiv := inferInstanceAs (Div ℚ)
  toNeg := inferInstanceAs (Neg ℚ)
  toZero := inferInstanceAs (Zero ℚ)
  toOne := inferInstanceAs (One ℚ)
  decEq := inferInstanceAs (DecidableEq ℚ)
  decimal m e := (m / 10 ^ e : ℚ)
  compare? (a b : ℚ) := some (compare a b)
  canonical a := a
  isFinite _ := true
  ofInteger n := (n.toInt : ℚ)
  round (a : ℚ) := Int64.ofInt (max (-2 ^ 63) (min (2 ^ 63 - 1)
    (if 0 ≤ a then (a + 1 / 2).floor else -(1 / 2 - a).floor)))
  abs (a : ℚ) := (|a| : ℚ)
  sqrt _ := (0 : ℚ)
  sin _ := (0 : ℚ)
  cos _ := (0 : ℚ)
  tan _ := (0 : ℚ)
  asin _ := (0 : ℚ)
  acos _ := (0 : ℚ)
  atan _ := (0 : ℚ)
  atan2 _ _ := (0 : ℚ)
  norm _ := (0 : ℚ)
  dot _ _ := (0 : ℚ)
  cross v _ := v
  ofAngles v := ⟨v.x, v.y, v.z, (0 : ℚ)⟩
  angles q := ⟨q.i, q.j, q.k⟩
  compose p _ := p
  inverse p := p
  apply _ v := v

/-- **Rational numbers are exact.** -/
def exact : Scalar.Exact Fraction ℚ where
  read (a : ℚ) := a
  injective _ _ h := h
  zero := rfl
  one := rfl
  add _ _ := rfl
  sub _ _ := rfl
  mul _ _ := rfl
  div _ _ := rfl
  compare _ _ := rfl
  canonical _ := rfl

end Fraction

end SignalNet
