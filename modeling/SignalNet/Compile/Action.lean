import SignalNet.Compile.Lower
import SignalNet.Compile.Ports
import SignalNet.Motion.Action

/-!
# Lowering actions

An action becomes ports for its channels, for being completed and being active
(one is the negation of the other), and for its exceptions.  A wrapper passes
on the channels, the milestones and those exceptions that it does not handle.
-/

namespace SignalNet.Session

open Lowering

variable {α : Type} [Scalar α]

/-- What a wrapper passes on of the signals inside. -/
def passedOn (handled : List ExceptionClass) (inner : Registry) : Registry :=
  inner.entries.foldl (fun passed (signal, port) => match signal with
    | .state (.milestone name) => passed.register (.state (.milestone name)) port
    | .state _ => passed
    | .exception c =>
      if handled.any c.isA then passed else passed.register (.exception c) port) {}

/-- Lower the conditions under which an action raises exceptions. -/
def lowerRaises (program : Program α) : List RaiseSite → Registry → Lowering α Registry
  | [], signals => pure signals
  | site :: rest, signals => do
    let port ← lower program site.condition
    expectBoolean port ("raise site for " ++ site.exception.name)
    lowerRaises program rest (signals.register (.exception site.exception) port)

/-- Enter the port that says that an action is completed, and its negation
that says that it is active. -/
def registerCompleted (completed : PortId) (signals : Registry) : Lowering α Registry := do
  let signals := signals.register (.state .completed) completed
  let active ← negate completed
  return signals.register (.state .active) active

/-- Lower a motion to its channel, if it has one, and to the port that says
that it is completed. -/
def lowerMotion (program : Program α) :
    Motion α → Lowering α (Table String PortId × PortId)
  | .track channel setpoint within settle => do
    let out ← lower program setpoint
    let within ← lower program within
    let completed ← timer within settle
    return (Table.empty.insert channel out, completed)
  | .ramp channel position _ next distance => do
    addResolver ⟨[position], .expression next⟩
    let out ← lower program next
    let distance ← lower program distance
    let tolerance ← constPort (.double program.settings.completionTolerance)
    let completed ← add (.compare .lessEq) [distance, tolerance] .boolean
    return (Table.empty.insert channel out, completed)
  | .wait duration => do
    let on ← constPort (.boolean true)
    let completed ← timer on duration
    return (.empty, completed)

/-- Lower an action. -/
def lowerAction (program : Program α) : Action α → Lowering α ActionPorts
  | .basic name motion raises => do
    let (outputs, completed) ← lowerMotion program motion
    let signals ← registerCompleted completed {}
    let signals ← lowerRaises program raises signals
    return .mk name outputs signals []
  | .wrapped name inner handled raises => do
    let ports ← lowerAction program inner
    let completed ← anyOf (ports.signals.statePorts .completed)
    let signals ← registerCompleted completed (passedOn handled ports.signals)
    let signals ← lowerRaises program raises signals
    return .mk name ports.outputs signals [ports]

end SignalNet.Session
