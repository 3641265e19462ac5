import SignalNet.Compile.Lower
import SignalNet.Compile.Ports
import SignalNet.Expr.Probe
import SignalNet.Motion.StateExpr

/-!
# Lowering state expressions

A state expression becomes a boolean port, or nothing if the state can never
occur.  What never occurs makes a conjunction never occur and drops out of a
disjunction; its negation always holds.
-/

namespace SignalNet.Session

open Lowering

variable {α : Type} [Scalar α]

/-- A condition is known never to hold: it is constant and known to be
false. -/
def neverHolds (program : Program α) (id : ExprId) : Bool :=
  program.pool.isConstant id &&
    (program.pool.cheapValue? program.host id).any fun v => v.same (.boolean false)

/-- The disjunction of ports, nothing if there are none. -/
def anyOf? : List PortId → Lowering α (Option PortId)
  | [] => pure none
  | ports => some <$> anyOf ports

mutual

/-- Lower a state expression about an action. -/
def lowerState (program : Program α) (action : ActionPorts) :
    StateExpr α → Lowering α (Option PortId)
  | .condition id =>
    if neverHolds program id then pure none
    else do
      let port ← lower program id
      expectBoolean port "state condition"
      return some port
  | .of state => anyOf? (action.signals.statePorts state)
  | .exception c => anyOf? (action.signals.exceptionPorts c)
  | .and members => do
    match ← lowerAllStates program action members with
    | none => pure none
    | some ports => some <$> allOf ports
  | .or [] => some <$> constPort (.boolean false)
  | .or (member :: members) => do
    let first ← lowerState program action member
    let rest ← lowerSomeStates program action members
    anyOf? (first.toList ++ rest)
  | .not inner => do
    match ← lowerState program action inner with
    | some port => some <$> negate port
    | none => some <$> constPort (.boolean true)
  | .explicit activate deactivate => do
    match ← lowerState program action activate with
    | none => pure none
    | some set =>
      let reset ← match deactivate with
        | some d => lowerState program action d
        | none => pure none
      let reset ← match reset with
        | some port => pure port
        | none => constPort (.boolean false)
      some <$> add .latch [set, reset] .boolean
  | .long inner duration => do
    match ← lowerState program action inner with
    | some port => some <$> timer port duration
    | none => pure none
  | .scoped name inner =>
    match action.find? name with
    | some found => lowerState program found inner
    | none => throw (.unknownAction name)
  | .named name inner => do
    match ← lowerState program action inner with
    | some port =>
      register (.state (.milestone name)) port
      return some port
    | none => pure none

/-- Lower state expressions up to the first that never occurs. -/
def lowerAllStates (program : Program α) (action : ActionPorts) :
    List (StateExpr α) → Lowering α (Option (List PortId))
  | [] => pure (some [])
  | member :: rest => do
    match ← lowerState program action member with
    | none => pure none
    | some port => return (← lowerAllStates program action rest).map (port :: ·)

/-- Lower state expressions and drop those that never occur. -/
def lowerSomeStates (program : Program α) (action : ActionPorts) :
    List (StateExpr α) → Lowering α (List PortId)
  | [] => pure []
  | member :: rest => do
    let port ← lowerState program action member
    let ports ← lowerSomeStates program action rest
    return port.toList ++ ports

end

end SignalNet.Session
