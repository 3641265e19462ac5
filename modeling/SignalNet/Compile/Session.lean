import SignalNet.Compile.Error
import SignalNet.Compile.Parameters
import SignalNet.Compile.Rule
import SignalNet.Net.Order

/-!
# Sessions

Compiling one request is a session: it grows one fragment, and remembers the
port of every expression and of every constant, so that each is lowered once.
Placeholders are lowered to identity blocks whose inputs stay open until they
are resolved; sources that know how to resolve them are collected on the way.

This module holds the state of a session and what does not depend on the
expressions.  Expressions are lowered in `SignalNet.Compile.Lower`.
-/

namespace SignalNet

/-- A placeholder that has a block. -/
structure OpenPlaceholder where
  expr : ExprId
  number : Nat
  label : String
  kind : Kind
  /-- The input port of the block. -/
  input : PortId
  resolved : Bool := false
  deriving DecidableEq, Repr

/-- Where the value of a placeholder comes from. -/
inductive Source (α : Type)
  | expression (producer : ExprId)
  | constant (value : Value α)
  | port (id : PortId)
  deriving DecidableEq, Repr

/-- A source for some placeholders. -/
structure Resolver (α : Type) where
  targets : List ExprId
  source : Source α
  deriving DecidableEq, Repr

/-- The state of a session. -/
structure Session (α : Type) where
  fragment : Fragment α := {}
  lowered : Table ExprId PortId := {}
  /-- The ports of constants, by canonical value. -/
  constants : Table (Value α) PortId := {}
  placeholders : List OpenPlaceholder := []
  resolvers : List (Resolver α) := []
  deriving DecidableEq, Repr

/-- What a session lowers from. -/
structure Program (α : Type) where
  pool : Pool α
  rules : Rules α
  parameters : Parameters α
  settings : Settings α
  host : Host α

/-- Steps of a session. -/
abbrev Lowering (α : Type) := EStateM (CompileError α) (Session α)

namespace Lowering

variable {α β : Type}

/-- A query on the pool. -/
def ofExpr : Except (ExprError α) β → Lowering α β
  | .ok b => pure b
  | .error e => throw (.expr e)

/-- A query on the fragment. -/
def ofNet : Except NetError β → Lowering α β
  | .ok b => pure b
  | .error e => throw (.net e)

/-- A call on the fragment. -/
def wire (call : Wiring α β) : Lowering α β := fun s =>
  match call s.fragment with
  | .ok b f => .ok b { s with fragment := f }
  | .error e f => .error (.net e) { s with fragment := f }

end Lowering

namespace Session

open Lowering

variable {α : Type}

/-- A session that has lowered nothing. -/
def empty : Session α := {}

/-- Add a block on the given ports and return its output port. -/
def add (primitive : Primitive α) (inputs : List PortId) (kind : Kind) : Lowering α PortId :=
  if inputs.isEmpty then wire (Fragment.addSource primitive kind)
  else wire (Fragment.addWired primitive inputs kind)

/-- A port must carry booleans. -/
def expectBoolean (port : PortId) (what : String) : Lowering α Unit := do
  let kind ← ofNet ((← get).fragment.kindOf port)
  if kind = .boolean then pure () else throw (.constraint (.notBoolean what kind))

/-- The negation of a port. -/
def negate (port : PortId) : Lowering α PortId :=
  add (.unary .not) [port] .boolean

/-- True once a port has been true for `duration` seconds. -/
def timer (port : PortId) (duration : α) : Lowering α PortId :=
  add (.timer duration) [port] .boolean

/-- Collect a source for placeholders. -/
def addResolver (r : Resolver α) : Lowering α Unit :=
  modify fun s => { s with resolvers := s.resolvers ++ [r] }

/-- Record that a port stands for a state or an exception. -/
def register (signal : Signal) (port : PortId) : Lowering α Unit :=
  wire (Fragment.register signal port)

/-- The placeholders that still wait for a producer. -/
def unresolved (s : Session α) : List OpenPlaceholder :=
  s.placeholders.filter fun p => !p.resolved

/-- Add the block that stands for a placeholder, and return its output. -/
def openPlaceholder (pool : Pool α) (id : ExprId) : Lowering α PortId := do
  let n ← ofExpr (pool.node id)
  match n.form with
  | .placeholder number label =>
    let block ← wire (Fragment.addBlock .identity [n.kind] (some n.kind))
    let b ← ofNet ((← get).fragment.block block)
    let output ← ofNet ((← get).fragment.outputPort block)
    let input := b.inputs.headD 0
    modify fun s => { s with
      placeholders := s.placeholders ++ [⟨id, number, label, n.kind, input, false⟩] }
    return output
  | form => throw (.constraint (.notPlaceholder id form.typeName))

/-- Mark the first placeholder with a number as resolved. -/
def markResolved (number : Nat) : List OpenPlaceholder → List OpenPlaceholder
  | [] => []
  | p :: rest =>
    if p.number = number then { p with resolved := true } :: rest
    else p :: markResolved number rest

/-- Wire a placeholder to a port.  A placeholder is resolved once. -/
def resolve (number : Nat) (port : PortId) : Lowering α Unit := do
  match (← get).placeholders.find? fun p => decide (p.number = number) with
  | none => throw (.constraint (.notLowered number))
  | some p =>
    if p.resolved then throw (.resolvedTwice p.label)
    else
      modify fun s => { s with placeholders := markResolved number s.placeholders }
      wire (Fragment.connect port p.input)

variable [Scalar α]

/-- The port of a constant.  Equal constants share a block. -/
def constPort (value : Value α) : Lowering α PortId := do
  match (← get).constants.get? value.canonical with
  | some port => return port
  | none =>
    let port ← wire (Fragment.addSource (.constant value) value.kind)
    modify fun s => { s with constants := s.constants.insert value.canonical port }
    return port

/-- The disjunction of ports: `false` for none, the port itself for one. -/
def anyOf : List PortId → Lowering α PortId
  | [] => constPort (.boolean false)
  | [port] => pure port
  | ports => add .anyOf ports .boolean

/-- The conjunction of ports: `true` for none, the port itself for one. -/
def allOf : List PortId → Lowering α PortId
  | [] => constPort (.boolean true)
  | [port] => pure port
  | ports => add .allOf ports .boolean

end Session

end SignalNet
