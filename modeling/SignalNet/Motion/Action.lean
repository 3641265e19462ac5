import SignalNet.Expr.Build
import SignalNet.Signal

/-!
# Actions

An action is a piece of motion or timing: follow a setpoint, ramp toward a
target, wait, or wrap another action.  It drives channels, is active until it
is completed, and raises exceptions while conditions hold.

A ramp refers to its own position of the previous cycle and to a speed scale
that the enclosing command decides.  Both references are placeholders.
-/

namespace SignalNet

/-- A boolean expression that raises an exception while it is true. -/
structure RaiseSite where
  exception : ExceptionClass
  condition : ExprId
  deriving DecidableEq, Repr

/-- What an action that wraps no other does. -/
inductive Motion (α : Type)
  /-- Put out `setpoint`; completed once `within` has held for `settle`
  seconds. -/
  | track (channel : String) (setpoint within : ExprId) (settle : α)
  /-- Put out `next`, a position that approaches a target; completed once
  `distance` is small.  `position` and `scale` are placeholders. -/
  | ramp (channel : String) (position scale next distance : ExprId)
  /-- Completed after `duration` seconds. -/
  | wait (duration : α)
  deriving DecidableEq, Repr

/-- A piece of motion or timing. -/
inductive Action (α : Type)
  | basic (name : String) (motion : Motion α) (raises : List RaiseSite)
  /-- Another action, some of whose exceptions are handled here. -/
  | wrapped (name : String) (inner : Action α) (handled : List ExceptionClass)
      (raises : List RaiseSite)
  deriving DecidableEq, Repr

/-- The expressions that decide the scope of a motion. -/
def Motion.scopeIds {α : Type} : Motion α → List ExprId
  | track _ setpoint within _ => [setpoint, within]
  | ramp _ _ _ next _ => [next]
  | wait _ => []

namespace Action

variable {α : Type}

def name : Action α → String
  | basic name _ _ | wrapped name _ _ _ => name

def raises : Action α → List RaiseSite
  | basic _ _ raises | wrapped _ _ _ raises => raises

/-- Wait for some seconds. -/
def wait (name : String) (duration : α) : Action α :=
  basic name (.wait duration) []

/-- Wrap an action. -/
def wrap (name : String) (inner : Action α) : Action α :=
  wrapped name inner [] []

/-- Handle the exceptions of a class here.  Only a wrapper handles any. -/
def handling (c : ExceptionClass) : Action α → Action α
  | wrapped name inner handled raises => wrapped name inner (handled ++ [c]) raises
  | action => action

/-- Raise an exception while a condition holds. -/
def raising (c : ExceptionClass) (condition : ExprId) : Action α → Action α
  | basic name motion raises => basic name motion (raises ++ [⟨c, condition⟩])
  | wrapped name inner handled raises => wrapped name inner handled (raises ++ [⟨c, condition⟩])

/-- The scale placeholders of the ramps in an action. -/
def scalePlaceholders : Action α → List ExprId
  | basic _ (.ramp _ _ scale _ _) _ => [scale]
  | basic _ _ _ => []
  | wrapped _ inner _ _ => inner.scalePlaceholders

/-- The scope of all expressions of an action. -/
def scope (p : Pool α) : Action α → Except (ExprError α) Scope
  | basic _ motion raises => p.joinScopes .global (motion.scopeIds ++ raises.map (·.condition))
  | wrapped _ inner _ raises =>
    match inner.scope p with
    | .error e => .error e
    | .ok s => p.joinScopes s (raises.map (·.condition))

variable [Scalar α]

/-- Drive `channel` with `setpoint`.  Completed once the distance between
setpoint and feedback has been at most `tolerance` for `settle` seconds. -/
def track (name channel : String) (setpoint feedback : ExprId) (tolerance settle : α) :
    Building α (Action α) := do
  if !(Scalar.isFinite tolerance && Scalar.le 0 tolerance) then
    throw (.invalidArgument (.tolerance tolerance))
  else
    let error ← Pool.binary .sub setpoint feedback
    let error ← Pool.unary .abs error
    let tolerance ← Pool.constant (.double tolerance)
    let within ← Pool.compare .lessEq error tolerance
    return basic name (.track channel setpoint within settle) []

/-- Move `channel` from `start` toward `target` by at most `maxRate` a second,
scaled by the override of the enclosing command. -/
def ramp (name channel : String) (start target : ExprId) (maxRate : α) :
    Building α (Action α) := do
  if !(Scalar.isFinite maxRate && Scalar.lt 0 maxRate) then
    throw (.invalidArgument (.rampRate maxRate))
  else
    let p ← get
    let startScope ← Building.ofExcept (p.scopeOf start)
    let scope ← Building.ofExcept (p.joinScopes startScope [target])
    let position ← Pool.placeholder (name ++ ".position") .double scope
    let scale ← Pool.placeholder (name ++ ".override") .double scope
    -- The first cycle begins at `start`, each later one where the last ended.
    let on ← Pool.constant (.boolean true)
    let started ← Pool.pre on (.boolean false)
    let previous ← Pool.pre position (.double 0)
    let origin ← Pool.select started previous start
    let rate ← Pool.constant (.double maxRate)
    let period ← Pool.clock .period
    let step ← Pool.binary .mul rate period
    let step ← Pool.binary .mul step scale
    let back ← Pool.unary .neg step
    let delta ← Pool.binary .sub target origin
    let delta ← Pool.limit delta back step
    let next ← Pool.binary .add origin delta
    let distance ← Pool.binary .sub target next
    let distance ← Pool.unary .abs distance
    return basic name (.ramp channel position scale next distance) []

end Action

end SignalNet
