import SignalNet.Table
import SignalNet.Value

/-!
# Parameters of a compilation

Values for the parameters of expressions, and slots for persisted values.
-/

namespace SignalNet

/-- What is supplied with a request to compile. -/
structure Parameters (α : Type) where
  values : Table String (Value α) := {}
  slots : Table Nat Nat := {}

namespace Parameters

variable {α : Type}

/-- Give a parameter its value. -/
def set (p : Parameters α) (name : String) (v : Value α) : Parameters α :=
  { p with values := p.values.insert name v }

/-- Keep the value of a handle in a slot. -/
def bind (p : Parameters α) (handle slot : Nat) : Parameters α :=
  { p with slots := p.slots.insert handle slot }

/-- The value of a parameter. -/
def value? (p : Parameters α) (name : String) : Option (Value α) :=
  p.values.get? name

/-- The slot that keeps the value of a handle. -/
def slot? (p : Parameters α) (handle : Nat) : Option Nat :=
  p.slots.get? handle

end Parameters

end SignalNet
