import SignalNet.Operator
import SignalNet.Value

/-!
# Primitives

The vocabulary of networks: sources, operators, filters, delays, latches,
timers and sinks.  A delay (`Primitive.pre`) is the only primitive whose
output does not depend on its input of the same cycle, so only delays may
close a loop.
-/

namespace SignalNet

/-- What a block does, with its parameters. -/
inductive Primitive (α : Type)
  | constant (value : Value α)
  /-- A value set from outside. -/
  | input (name : String)
  /-- A reading provided by a driver. -/
  | sensor (name : String) (device : Option String)
  | clock (signal : ClockSignal)
  | unary (op : UnaryOp)
  | binary (op : BinaryOp)
  | compare (op : CompareOp)
  /-- Inputs: condition, value if true, value if false. -/
  | select
  /-- Inputs: value, lower bound, upper bound. -/
  | limit
  /-- A low pass of first order. -/
  | smooth (timeConstant : α)
  | rateLimit (maxRate : α)
  /-- The input of the previous cycle, `initial` in the first. -/
  | pre (initial : Value α)
  | edge (rising : Bool)
  | pack
  | index (position : Nat)
  | compose (composite : Composite)
  /-- Passes its input on.  Stands for a placeholder until that is resolved. -/
  | identity
  /-- Inputs: set, reset.  Set wins when both are true. -/
  | latch
  /-- True once the input has been true for `duration` seconds. -/
  | timer (duration : α)
  /-- True if one of the inputs is. -/
  | anyOf
  /-- True if all inputs are. -/
  | allOf
  /-- Keeps its input in a slot at the end of each cycle. -/
  | store (slot : Nat)
  /-- The value kept in a slot. -/
  | load (slot : Nat)
  /-- A block contributed by a rule of the user. -/
  | custom (typeName : String) (parameters : List α)
  deriving DecidableEq, Repr

namespace Primitive

variable {α : Type}

def name : Primitive α → String
  | constant _ => "constant"
  | input _ => "input"
  | sensor _ _ => "sensor"
  | clock _ => "clock"
  | unary op => op.name
  | binary op => op.name
  | compare op => op.name
  | select => "select"
  | limit => "limit"
  | smooth _ => "smooth"
  | rateLimit _ => "rate_limit"
  | pre _ => "pre"
  | edge _ => "edge"
  | pack => "pack"
  | index _ => "index"
  | compose _ => "compose"
  | identity => "identity"
  | latch => "latch"
  | timer _ => "timer"
  | anyOf => "any_of"
  | allOf => "all_of"
  | store _ => "persist_store"
  | load _ => "persist_load"
  | custom typeName _ => typeName

/-- The number of inputs, `none` if it varies. -/
def arity? : Primitive α → Option Nat
  | constant _ | input _ | sensor _ _ | clock _ | load _ => some 0
  | unary _ | smooth _ | rateLimit _ | pre _ | edge _ | index _ | identity | timer _
  | store _ => some 1
  | binary _ | compare _ | latch => some 2
  | select | limit => some 3
  | pack | compose _ | anyOf | allOf | custom _ _ => none

/-- A primitive without output. -/
def isSink : Primitive α → Bool
  | store _ => true
  | _ => false

/-- A primitive whose output does not depend on its input of the same cycle.
An edge is none: it compares its input with the previous cycle. -/
def isDelay : Primitive α → Bool
  | pre _ => true
  | _ => false

end Primitive

end SignalNet
