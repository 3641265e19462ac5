import SignalNet.Kind
import SignalNet.Scalar

/-!
# Values

A value is what a signal carries in one cycle.  Values that structural sharing
identifies have the same canonical form (`Value.canonical`); the test is
`Value.same`.
-/

namespace SignalNet

/-- The value of a signal. -/
inductive Value (α : Type)
  | double (x : α)
  | boolean (b : Bool)
  | integer (n : Int64)
  | array (xs : List α)
  | vector (v : Vec3 α)
  | transform (p : Pose α)
  deriving DecidableEq, Repr

namespace Value

variable {α : Type}

def kind : Value α → Kind
  | double _ => .double
  | boolean _ => .boolean
  | integer _ => .integer
  | array xs => .array xs.length
  | vector _ => .vector
  | transform _ => .transform

def asDouble? : Value α → Option α
  | double x => some x
  | _ => none

def asBoolean? : Value α → Option Bool
  | boolean b => some b
  | _ => none

def asInteger? : Value α → Option Int64
  | integer n => some n
  | _ => none

def asVector? : Value α → Option (Vec3 α)
  | vector v => some v
  | _ => none

def asTransform? : Value α → Option (Pose α)
  | transform p => some p
  | _ => none

/-- Apply a function to every scalar inside a value. -/
def map (f : α → α) : Value α → Value α
  | double x => double (f x)
  | boolean b => boolean b
  | integer n => integer n
  | array xs => array (xs.map f)
  | vector v => vector (v.map f)
  | transform p => transform (p.map f)

variable [Scalar α]

/-- The neutral value of a kind: what an unset signal carries. -/
def zero : Kind → Value α
  | .double => double 0
  | .boolean => boolean false
  | .integer => integer 0
  | .array n => array (List.replicate n 0)
  | .vector => vector .zero
  | .transform => transform .identity

/-- The neutral element of addition, of a numeric kind. -/
def isZero : Value α → Bool
  | double x => Scalar.eqv x 0
  | integer n => n == 0
  | _ => false

/-- The neutral element of multiplication, of a numeric kind. -/
def isOne : Value α → Bool
  | double x => Scalar.eqv x 1
  | integer n => n == 1
  | _ => false

/-- The representative of the values that structural sharing identifies. -/
def canonical (v : Value α) : Value α :=
  v.map Scalar.canonical

/-- Two values that structural sharing identifies. -/
def same (a b : Value α) : Bool :=
  decide (a.canonical = b.canonical)

theorem kind_zero (k : Kind) : (zero k : Value α).kind = k := by
  cases k <;> simp [zero, kind]

omit [Scalar α] in
theorem kind_map (f : α → α) (v : Value α) : (v.map f).kind = v.kind := by
  cases v <;> simp [map, kind]

end Value

end SignalNet
