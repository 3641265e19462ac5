import SignalNet.Compile.Action
import SignalNet.Compile.State
import SignalNet.Motion.Command

/-!
# Lowering commands

A command becomes the ports of its action together with the exceptions that
its handlers raise, the state of being cancelled, and the effective override
as an output.  Cancellation is requested by an input and by handlers; it is
complete when the scale has come down to zero.
-/

namespace SignalNet.Session

open Lowering

variable {α : Type} [Scalar α]

/-- What handlers contribute: the signals so far, and the ports that request
cancellation. -/
structure Handled where
  signals : Registry
  cancels : List PortId

/-- Lower handlers in order.  One that can never be triggered is dropped. -/
def lowerHandlers (program : Program α) (action : ActionPorts) :
    List (Handler α) → Handled → Lowering α Handled
  | [], done => pure done
  | handler :: rest, done => do
    match ← lowerState program action handler.trigger with
    | none => lowerHandlers program action rest done
    | some port =>
      match handler.reaction with
      | .raise c =>
        lowerHandlers program action rest
          { done with signals := done.signals.register (.exception c) port }
      | .cancel => lowerHandlers program action rest { done with cancels := done.cancels ++ [port] }

/-- Keep the value of a handle in its slot at the end of each cycle. -/
def storePersisted (program : Program α) (handle : Nat) : Lowering α Unit := do
  match program.parameters.slot? handle with
  | none => throw (.unboundPersisted handle)
  | some slot =>
    let source ← ofExpr (program.pool.persistSource handle)
    let value ← lower program source
    let kind ← ofNet ((← get).fragment.kindOf value)
    let block ← wire (Fragment.addBlock (.store slot) [kind] none)
    let b ← ofNet ((← get).fragment.block block)
    wire (Fragment.connect value (b.inputs.headD 0))

/-- Keep the values of handles, from left to right. -/
def storeEach (program : Program α) : List Nat → Lowering α Unit
  | [] => pure ()
  | handle :: rest => do
    storePersisted program handle
    storeEach program rest

/-- Lower a command. -/
def lowerCommand (program : Program α) (c : Command α) : Lowering α ActionPorts := do
  let action ← lowerAction program c.action
  addResolver ⟨[c.scaleState], .expression c.scale⟩
  let ramps := c.action.scalePlaceholders
  if !ramps.isEmpty then addResolver ⟨ramps, .expression c.effective⟩
  let cancelInput ← lower program c.cancelInput
  let handled ← lowerHandlers program action c.handlers ⟨action.signals, [cancelInput]⟩
  let cancel ← anyOf handled.cancels
  addResolver ⟨[c.cancel], .port cancel⟩
  let scale ← lower program c.scale
  let still ← constPort (.double 0)
  let stopped ← add (.compare .lessEq) [scale, still] .boolean
  let cancelled ← allOf [cancel, stopped]
  let signals := handled.signals.register (.state .cancelled) cancelled
  let effective ← lower program c.effective
  let outputs := action.outputs.insert c.overrideOutputName effective
  storeEach program c.persists
  return .mk c.name outputs signals [action]

end SignalNet.Session
