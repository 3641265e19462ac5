import SignalNet.Compile.Command
import SignalNet.Net.Simulator

/-!
# Compiling

A request names an expression, an action or a command, together with
parameters and with expressions to be observed.  Compiling it gives a complete
network and says which of its ports stand for what: the root of an expression,
states and exceptions, and the channels of observed expressions.
-/

namespace SignalNet

/-- What is to be compiled. -/
inductive Target (α : Type)
  | expr (id : ExprId)
  /-- An action outside of any command.  Its ramps run at full speed. -/
  | action (a : Action α)
  | command (c : Command α)

/-- A request to compile. -/
structure Request (α : Type) where
  target : Target α
  parameters : Parameters α := {}
  /-- Expressions whose values are reported to listeners. -/
  observed : List ExprId := []

/-- Observe an expression; once is enough. -/
def Request.observe {α : Type} (r : Request α) (id : ExprId) : Request α :=
  if id ∈ r.observed then r else { r with observed := r.observed ++ [id] }

/-- A complete network and what its ports stand for. -/
structure CompiledNet (α : Type) where
  fragment : Fragment α
  /-- The port of the expression that was compiled. -/
  root : Option PortId
  states : Table State PortId
  exceptions : Table ExceptionClass PortId
  /-- The names of the outputs that carry observed expressions. -/
  observed : Table ExprId String

namespace CompiledNet

variable {α : Type}

/-- The port of a state, nothing if the state never occurs. -/
def statePort? (net : CompiledNet α) (s : State) : Option PortId :=
  net.states.get? s

/-- The port of a class of exceptions, nothing if none is ever raised. -/
def exceptionPort? (net : CompiledNet α) (c : ExceptionClass) : Option PortId :=
  net.exceptions.get? c

/-- The port of a signal. -/
def port? (net : CompiledNet α) : Signal → Option PortId
  | .state s => net.statePort? s
  | .exception c => net.exceptionPort? c

/-- The output that carries an observed expression. -/
def channel? (net : CompiledNet α) (id : ExprId) : Option String :=
  net.observed.get? id

/-- States and their ports, in order. -/
def stateList (net : CompiledNet α) : List (State × PortId) :=
  net.states.sorted State.le

/-- Classes of exceptions and their ports, in order. -/
def exceptionList (net : CompiledNet α) : List (ExceptionClass × PortId) :=
  net.exceptions.sorted ExceptionClass.le

/-- Observed expressions and their channels, in order. -/
def observedList (net : CompiledNet α) : List (ExprId × String) :=
  net.observed.sorted fun a b => decide (a ≤ b)

end CompiledNet

namespace Session

open Lowering

variable {α : Type} [Scalar α]

/-- The name of the output that carries an observed expression. -/
def channelName (id : ExprId) : String :=
  "observed." ++ Ident.text id

omit [Scalar α] in
/-- Give ports their names. -/
def exposeEach : List (String × PortId) → Lowering α Unit
  | [] => pure ()
  | (name, port) :: rest => do
    wire (Fragment.expose name port)
    exposeEach rest

omit [Scalar α] in
/-- Enter signals into the registry of the fragment. -/
def registerEach : List (Signal × PortId) → Lowering α Unit
  | [] => pure ()
  | (signal, port) :: rest => do
    register signal port
    registerEach rest

/-- Lower what is to be compiled.  The result is the root of an expression, or
the ports of an action or a command. -/
def lowerTarget (program : Program α) : Target α → Lowering α (PortId ⊕ ActionPorts)
  | .expr id => do
    let port ← lower program id
    wire (Fragment.expose "out" port)
    return .inl port
  | .action a => do
    let ramps := a.scalePlaceholders
    if !ramps.isEmpty then addResolver ⟨ramps, .constant (.double 1)⟩
    return .inr (← lowerAction program a)
  | .command c => return .inr (← lowerCommand program c)

/-- Name the channels of an action and enter its signals. -/
def publish : PortId ⊕ ActionPorts → Lowering α Unit
  | .inl _ => pure ()
  | .inr ports => do
    exposeEach (ports.outputs.sorted textLe)
    registerEach ports.signals.entries

/-- Lower observed expressions and name their channels. -/
def observeEach (program : Program α) :
    List ExprId → Table ExprId String → Lowering α (Table ExprId String)
  | [], channels => pure channels
  | id :: rest, channels => do
    let port ← lower program id
    wire (Fragment.expose (channelName id) port)
    observeEach program rest (channels.insert id (channelName id))

/-- One port for each state. -/
def aggregateStates (registry : Registry) :
    List State → Table State PortId → Lowering α (Table State PortId)
  | [], ports => pure ports
  | s :: rest, ports => do
    let port ← anyOf (registry.statePorts s)
    aggregateStates registry rest (ports.insert s port)

/-- One port for each class of a list, where it has none yet. -/
def aggregateClasses (registry : Registry) :
    List ExceptionClass → Table ExceptionClass PortId → Lowering α (Table ExceptionClass PortId)
  | [], ports => pure ports
  | c :: rest, ports => do
    if ports.contains c then aggregateClasses registry rest ports
    else
      let port ← anyOf (registry.exceptionPorts c)
      aggregateClasses registry rest (ports.insert c port)

/-- Compile a request. -/
def compile (program : Program α) (request : Request α) : Lowering α (CompiledNet α) := do
  let target ← lowerTarget program request.target
  publish target
  let observed ← observeEach program request.observed .empty
  let registry := (← get).fragment.signals
  let states ← aggregateStates registry registry.states .empty
  let exceptions ←
    aggregateClasses registry (registry.exceptionClasses.flatMap ExceptionClass.chain) .empty
  let fragment ← finish program
  return { fragment, root := target.getLeft?, states, exceptions, observed }

end Session

/-- A compiler: rules and settings. -/
structure Compiler (α : Type) where
  rules : Rules α
  settings : Settings α

namespace Compiler

variable {α : Type} [Scalar α]

/-- Compile a request against a pool and a host. -/
def compile (c : Compiler α) (pool : Pool α) (host : Host α) (request : Request α) :
    Except (CompileError α) (CompiledNet α) :=
  match c.settings.check with
  | .error e => .error (.settings e)
  | .ok _ =>
    let program : Program α := ⟨pool, c.rules, request.parameters, c.settings, host⟩
    match Session.compile program request .empty with
    | .ok net _ => .ok net
    | .error e _ => .error e

/-- Compile requests that do not depend on each other. -/
def compileAll (c : Compiler α) (pool : Pool α) (host : Host α) (requests : List (Request α)) :
    List (Except (CompileError α) (CompiledNet α)) :=
  requests.map (c.compile pool host)

end Compiler

end SignalNet
