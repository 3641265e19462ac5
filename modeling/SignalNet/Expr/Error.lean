import SignalNet.Ident
import SignalNet.Kind
import SignalNet.Scalar.Finite
import SignalNet.Scope
import SignalNet.Value.Text

/-!
# Errors of construction

Why an expression, an action or a command cannot be built.  The errors carry
their causes; `ExprError.message` is the one place that knows the wording.
-/

namespace SignalNet

/-- An argument that a construction does not accept. -/
inductive InvalidArgument (α : Type)
  /-- Literal bounds of a limit in the wrong order. -/
  | limitsReversed (lower upper : Value α)
  | timeConstantNotPositive
  | rateNotPositive
  | emptyPack
  /-- A leaf cannot be built from operands. -/
  | leaf (typeName : String)
  /-- The tolerance of a tracking action is negative or not finite. -/
  | tolerance (value : α)
  /-- The rate of a ramp is not positive or not finite. -/
  | rampRate (value : α)
  /-- A command must know how fast to slow down. -/
  | noDeceleration (command : String)
  /-- The deceleration time of a command is not positive or not finite. -/
  | deceleration (command : String) (value : α)
  deriving DecidableEq, Repr

/-- Why an expression cannot be built. -/
inductive ExprError (α : Type)
  /-- Operands of scopes that exclude each other. -/
  | scopeMismatch (left right : Scope)
  /-- Operands whose kinds do not fit the operator. -/
  | typeMismatch (operator : String) (operands : List Kind)
  | invalidArgument (cause : InvalidArgument α)
  | indexOutOfBounds (index length : Nat)
  | unknownExpr (id : ExprId)
  | unknownHandle (handle : Nat)
  /-- Substitution reached a form that does not permit it. -/
  | unsupportedSubstitution (typeName : String)
  | nonFinite (cause : NonFinite α)
  deriving DecidableEq, Repr

open Decimal (Layout)

def InvalidArgument.message : InvalidArgument Float → String
  | limitsReversed lo hi =>
    "limit lower bound " ++ lo.text ++ " exceeds upper bound " ++ hi.text
  | timeConstantNotPositive => "smoothing time constant must be positive"
  | rateNotPositive => "rate limit must be positive"
  | emptyPack => "pack needs at least one element"
  | leaf name => "leaf kind '" ++ name ++ "' carries its own data kind"
  | tolerance v => "track tolerance must be non-negative, got " ++ Layout.sentence.write v
  | rampRate v => "ramp rate must be positive, got " ++ Layout.sentence.write v
  | noDeceleration command => "command '" ++ command ++ "' has no deceleration time"
  | deceleration command v =>
    "command '" ++ command ++ "' deceleration must be positive, got " ++
      Layout.sentence.write v ++ " s"

def ExprError.message : ExprError Float → String
  | scopeMismatch left right =>
    "Scope mismatch: cannot combine " ++ left.text ++ " with " ++ right.text
  | typeMismatch operator operands =>
    "Type mismatch in " ++ operator ++ ": operands " ++ commaSeparated (operands.map Kind.text)
  | invalidArgument cause => "Invalid argument: " ++ cause.message
  | indexOutOfBounds index length =>
    "Index " ++ toString index ++ " out of bounds for length " ++ toString length
  | unknownExpr id => "Unknown expression " ++ Ident.text id
  | unknownHandle handle => "Unknown persisted handle " ++ toString handle
  | unsupportedSubstitution name => "Unsupported substitution for node kind '" ++ name ++ "'"
  | nonFinite cause => cause.message

end SignalNet
