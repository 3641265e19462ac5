import SignalNet.Scalar
import SignalNet.Decimal.Layout

/-!
# Finite scalars

Parameters of expressions must be finite.
-/

namespace SignalNet

/-- A number that must be finite is not. -/
structure NonFinite (α : Type) where
  /-- What the number is for. -/
  what : String
  value : α
  deriving DecidableEq, Repr

/-- A finite scalar, or the complaint that it is not finite. -/
def Scalar.ensureFinite {α : Type} [Scalar α] (what : String) (value : α) :
    Except (NonFinite α) α :=
  if Scalar.isFinite value then .ok value else .error ⟨what, value⟩

def NonFinite.message (e : NonFinite Float) : String :=
  "Non-finite numeric value for " ++ e.what ++ ": " ++ Decimal.Layout.sentence.write e.value

end SignalNet
