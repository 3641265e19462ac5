import SignalNet.Expr.Persist
import SignalNet.Motion.Action
import SignalNet.Motion.StateExpr

/-!
# Commands

A command runs an action, handles events, and can be cancelled.  Its override
scale starts at one.  In each cycle after one that requests cancellation, the
scale drops by `period / deceleration` until it is zero.  Ramps of the command
move at their rate times the override, so a command slows down to a stop if
the request lasts.
-/

namespace SignalNet

/-- What happens while a trigger holds. -/
inductive Reaction
  /-- The command raises an exception. -/
  | raise (c : ExceptionClass)
  /-- Cancellation is requested. -/
  | cancel
  deriving DecidableEq, Repr

/-- A reaction and what triggers it. -/
structure Handler (α : Type) where
  trigger : StateExpr α
  reaction : Reaction

/-- An action with handlers, persisted values and a speed override. -/
structure Command (α : Type) where
  name : String
  scope : Scope
  action : Action α
  handlers : List (Handler α) := []
  /-- Handles of the values kept at the end of each cycle. -/
  persists : List Nat := []
  /-- Seconds from full speed to a stop. -/
  deceleration : α
  /-- The input that requests cancellation from outside. -/
  cancelInput : ExprId
  /-- Placeholder for all requests to cancel. -/
  cancel : ExprId
  /-- Placeholder for the scale itself. -/
  scaleState : ExprId
  scale : ExprId
  /-- The user's override times the scale. -/
  effective : ExprId

namespace Command

variable {α : Type} [Scalar α]

/-- The deceleration time of a command must be given, finite and positive. -/
def checkDeceleration (name : String) : Option α → Except (ExprError α) α
  | none => .error (.invalidArgument (.noDeceleration name))
  | some d =>
    if Scalar.isFinite d && Scalar.lt 0 d then .ok d
    else .error (.invalidArgument (.deceleration name d))

omit [Scalar α] in
/-- An action can run in a scope that encloses its own. -/
def checkScope (p : Pool α) (scope : Scope) (action : Action α) : Except (ExprError α) Unit :=
  match action.scope p with
  | .error e => .error e
  | .ok s => if scope.encloses s then .ok () else .error (.scopeMismatch scope s)

/-- A command that runs an action. -/
def new (name : String) (scope : Scope) (action : Action α) (deceleration : Option α) :
    Building α (Command α) := do
  let deceleration ← Building.ofExcept (checkDeceleration name deceleration)
  Building.ofExcept (checkScope (← get) scope action)
  let cancelInput ← Pool.input (name ++ ".cancel") .boolean scope
  let cancel ← Pool.placeholder (name ++ ".cancel_requested") .boolean scope
  let scaleState ← Pool.placeholder (name ++ ".scale") .double scope
  let previous ← Pool.pre scaleState (.double 1)
  let period ← Pool.clock .period
  let decel ← Pool.constant (.double deceleration)
  let rate ← Pool.binary .div period decel
  let stopped ← Pool.constant (.double 0)
  let full ← Pool.constant (.double 1)
  -- Handlers may read states of motion that this very scale drives.
  let requested ← Pool.pre cancel (.boolean false)
  let step ← Pool.select requested rate stopped
  let scale ← Pool.binary .sub previous step
  let scale ← Pool.limit scale stopped full
  return { name, scope, action, deceleration, cancelInput, cancel, scaleState, scale,
           effective := scale }

/-- Multiply the scale with an override of the user, in place of an earlier
one. -/
def withOverride (c : Command α) (speed : ExprId) : Building α (Command α) := do
  return { c with effective := ← Pool.binary .mul speed c.scale }

omit [Scalar α] in
/-- React while a trigger holds. -/
def on (c : Command α) (trigger : StateExpr α) (reaction : Reaction) : Command α :=
  { c with handlers := c.handlers ++ [⟨trigger, reaction⟩] }

omit [Scalar α] in
/-- Keep a persisted value at the end of each cycle. -/
def persisting (c : Command α) (handle : Nat) : Command α :=
  { c with persists := c.persists ++ [handle] }

omit [Scalar α] in
/-- The name of the input that requests cancellation. -/
def cancelInputName (c : Command α) : String :=
  c.name ++ ".cancel"

omit [Scalar α] in
/-- The name of the output that carries the effective override. -/
def overrideOutputName (c : Command α) : String :=
  c.name ++ ".override"

end Command

end SignalNet
