import SignalNet.Compile.Session

/-!
# Lowering expressions

An expression is lowered after its operands, by the rule for its keys, and at
most once in a session.  A session ends when all placeholders are resolved:
resolving one may lower expressions that open others, so this goes round by
round.  The fragment must then be complete.
-/

namespace SignalNet.Session

open Lowering

variable {α : Type} [Scalar α]

/-- A sensor of a device needs the device. -/
def checkDevice (host : Host α) : Option String → Lowering α Unit
  | none => pure ()
  | some device => if host.isPresent device then pure () else throw (.deviceUnavailable device)

/-- Lower one hop of a relation. -/
def lowerHop (host : Host α) : Hop α → Lowering α PortId
  | .fixed pose => constPort (.transform pose)
  | .measured sensor device inverted => do
    checkDevice host device
    let measured ← add (.sensor sensor device) [] .transform
    if inverted then add (.unary .invert) [measured] .transform else pure measured

/-- Lower hops and multiply them onto what comes before, from left to right. -/
def lowerHops (host : Host α) : (before : PortId) → List (Hop α) → Lowering α PortId
  | before, [] => pure before
  | before, hop :: rest => do
    let port ← lowerHop host hop
    let product ← add (.binary .mul) [before, port] .transform
    lowerHops host product rest

/-- Lower the motion from one frame to another. -/
def lowerRelation (host : Host α) (source target : String) : Lowering α PortId :=
  match host.path source target with
  | none => throw (.noRelation source target)
  | some [] => constPort (.transform .identity)
  | some (hop :: rest) => do
    let first ← lowerHop host hop
    lowerHops host first rest

/-- The value of a parameter, which must have the right kind. -/
def lowerParameter (parameters : Parameters α) (name : String) (kind : Kind) :
    Lowering α PortId :=
  match parameters.value? name with
  | none => throw (.missingParameter name)
  | some v =>
    if v.kind = kind then constPort v
    else throw (.constraint (.parameterKind name v.kind kind))

/-- The way the library lowers a node: most forms have a primitive of their
own. -/
def lowerStandard (program : Program α) (id : ExprId) (n : Node α) (inputs : List PortId) :
    Lowering α PortId :=
  match n.form with
  | .constant v => constPort v
  | .parameter name => lowerParameter program.parameters name n.kind
  | .sensor name device => do
    checkDevice program.host device
    add (.sensor name device) inputs n.kind
  | .input name => add (.input name) inputs n.kind
  | .clock signal => add (.clock signal) inputs n.kind
  | .relation source target => lowerRelation program.host source target
  | .placeholder _ _ => openPlaceholder program.pool id
  | .persisted handle =>
    match program.parameters.slot? handle with
    | none => throw (.unboundPersisted handle)
    | some slot => add (.load slot) inputs n.kind
  | .unary op _ => add (.unary op) inputs n.kind
  | .binary op _ _ => add (.binary op) inputs n.kind
  | .compare op _ _ => add (.compare op) inputs n.kind
  | .select _ _ _ => add .select inputs n.kind
  | .limit _ _ _ => add .limit inputs n.kind
  | .smooth _ tau => add (.smooth tau) inputs n.kind
  | .rateLimit _ rate => add (.rateLimit rate) inputs n.kind
  | .pre _ initial => add (.pre initial) inputs n.kind
  | .edge _ rising => add (.edge rising) inputs n.kind
  | .pack _ => add .pack inputs n.kind
  | .index _ position => add (.index position) inputs n.kind
  | .compose c _ => add (.compose c) inputs n.kind
  | .custom c => throw (.unmappable c.typeName n.form.keys)

/-- Lower a node by a rule; `lower` lowers other expressions. -/
def applyRule (program : Program α) (lower : ExprId → Lowering α PortId) (rule : Rule α)
    (id : ExprId) (n : Node α) (inputs : List PortId) : Lowering α PortId :=
  match rule with
  | .standard => lowerStandard program id n inputs
  | .block primitive kind => add primitive inputs (kind.getD n.kind)
  | .constant v => constPort v
  | .operand position =>
    match inputs[position]? with
    | some port => pure port
    | none => throw (.constraint (.noOperand position))
  | .expression other => lower other
  | .placeholder => openPlaceholder program.pool id
  | .custom =>
    let parameters := match n.form with
      | .custom c => c.parameters
      | _ => []
    add (.custom n.form.typeName parameters) inputs n.kind
  | .refuse reason => throw (.constraint (.refused reason))

/-- Lower expressions from left to right. -/
def lowerEach (lower : ExprId → Lowering α PortId) : List ExprId → Lowering α (List PortId)
  | [] => pure []
  | id :: rest => do
    let port ← lower id
    let ports ← lowerEach lower rest
    return port :: ports

/-- Remember the port of an expression, which must carry values of its kind. -/
def enter (id : ExprId) (n : Node α) (key : String) (port : PortId) : Lowering α PortId := do
  let produced ← ofNet ((← get).fragment.kindOf port)
  if produced = n.kind then
    modify fun s => { s with lowered := s.lowered.insert id port }
    return port
  else throw (.constraint (.producedKind key produced id n.kind))

/-- Lower an expression, at most `fuel` expressions deep. -/
def lowerWithin (program : Program α) : (fuel : Nat) → ExprId → Lowering α PortId
  | 0, id => throw (.circular id)
  | fuel + 1, id => do
    match (← get).lowered.get? id with
    | some port => pure port
    | none =>
      let n ← ofExpr (program.pool.node id)
      let inputs ← lowerEach (lowerWithin program fuel) n.dependencies
      match Rules.lookup? program.rules n.form.keys with
      | none => throw (.unmappable n.form.typeName n.form.keys)
      | some (key, rule) =>
        let port ← applyRule program (lowerWithin program fuel) rule id n inputs
        enter id n key port

/-- Lower an expression and return its port.  Going down from an expression to
operands and to what rules refer to, no expression is met twice, so the pool
bounds the depth. -/
def lower (program : Program α) (id : ExprId) : Lowering α PortId :=
  lowerWithin program (program.pool.size + 1) id

/-- The port from which a placeholder gets its value. -/
def sourcePort (program : Program α) : Source α → Lowering α PortId
  | .expression producer => lower program producer
  | .constant v => constPort v
  | .port id => pure id

/-- Resolve a placeholder by the first source that is meant for it. -/
def resolveOpen (program : Program α) (resolvers : List (Resolver α)) (p : OpenPlaceholder) :
    Lowering α Unit :=
  match resolvers.find? fun r => r.targets.contains p.expr with
  | none => throw (.unresolvedPlaceholder p.label)
  | some r => do
    let port ← sourcePort program r.source
    resolve p.number port

/-- Resolve placeholders from left to right. -/
def resolveEach (program : Program α) (resolvers : List (Resolver α)) :
    List OpenPlaceholder → Lowering α Unit
  | [] => pure ()
  | p :: rest => do
    resolveOpen program resolvers p
    resolveEach program resolvers rest

/-- Resolve all placeholders, those included that are opened on the way, in at
most `fuel` rounds. -/
def resolveWithin (program : Program α) : (fuel : Nat) → Lowering α Unit
  | 0 => pure ()
  | fuel + 1 => do
    let s ← get
    match s.unresolved with
    | [] => pure ()
    | waiting =>
      resolveEach program s.resolvers waiting
      resolveWithin program fuel

/-- End a session: resolve all placeholders and return the complete fragment.
Each round but the first resolves placeholders that the round before lowered,
and an expression is lowered once, so the pool bounds the rounds. -/
def finish (program : Program α) : Lowering α (Fragment α) := do
  resolveWithin program (program.pool.size + 2)
  let f := (← get).fragment
  ofNet f.validate
  return f

end SignalNet.Session
