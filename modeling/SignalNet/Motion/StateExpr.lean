import SignalNet.Ident
import SignalNet.Signal

/-!
# State expressions

Handlers of commands are triggered by state expressions: boolean combinations
of conditions, of states of actions, and of exceptions.
-/

namespace SignalNet

/-- A boolean combination of conditions, states and exceptions. -/
inductive StateExpr (α : Type)
  /-- A boolean expression. -/
  | condition (id : ExprId)
  /-- A state of the action. -/
  | of (state : State)
  | and (members : List (StateExpr α))
  | or (members : List (StateExpr α))
  | not (inner : StateExpr α)
  /-- On from `activate` until `deactivate`. -/
  | explicit (activate : StateExpr α) (deactivate : Option (StateExpr α))
  /-- `inner` has held for `duration` seconds. -/
  | long (inner : StateExpr α) (duration : α)
  /-- `inner`, seen from an action inside the action. -/
  | scoped (action : String) (inner : StateExpr α)
  /-- `inner`, which is also a milestone of that name. -/
  | named (name : String) (inner : StateExpr α)
  /-- An exception of the action. -/
  | exception (c : ExceptionClass)
  deriving Repr

end SignalNet
