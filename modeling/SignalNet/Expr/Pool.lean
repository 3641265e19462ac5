import SignalNet.Expr.Error
import SignalNet.Expr.Form
import SignalNet.Host

/-!
# Pools of expressions

A pool holds expressions and shares those that are structurally equal: beside
the nodes it keeps an index of them, and adding a node that the index knows
returns its position.  Operands stand before the nodes that use them, and nodes
are never changed or removed, so positions keep their meaning forever.

Constructions are computations of type `Building`: they transform a pool and
either return a result or stop with an error, and the pool stays as it is at
that point.  This module holds the leaves; composite nodes are built in
`SignalNet.Expr.Build`.
-/

namespace SignalNet

/-- An expression of a pool. -/
structure Node (α : Type) where
  form : Form α
  kind : Kind
  scope : Scope
  /-- The value never changes once computed. -/
  constant : Bool
  deriving DecidableEq, Repr

/-- The dependencies of a node. -/
def Node.dependencies {α : Type} (n : Node α) : List ExprId :=
  n.form.dependencies

/-- The representative of the nodes that structural sharing identifies. -/
def Node.canonical {α : Type} [Scalar α] (n : Node α) : Node α :=
  { n with form := n.form.canonical }

/-- An expression whose value outlives its command, and the scope in which the
value is read back. -/
structure Persist where
  source : ExprId
  target : Scope
  deriving DecidableEq, Repr

/-- The text of a handle of a persisted value. -/
def Persist.handleText (handle : Nat) : String :=
  "persist#" ++ toString handle

/-- A pool of expressions. -/
structure Pool (α : Type) where
  /-- Operators on constants are evaluated when they are built, and neutral
  operands are dropped. -/
  folding : Bool
  nodes : List (Node α) := []
  /-- The index: the position of each node, by the representative of the nodes
  that are shared with it. -/
  positions : Table (Node α) ExprId := {}
  /-- The number of the next placeholder. -/
  nextPlaceholder : Nat := 0
  persists : List Persist := []
  deriving DecidableEq, Repr

/-- Constructions on a pool. -/
abbrev Building (α : Type) := EStateM (ExprError α) (Pool α)

/-- A query that stops with its error. -/
def Building.ofExcept {α β : Type} : Except (ExprError α) β → Building α β
  | .ok b => pure b
  | .error e => throw e

namespace Pool

variable {α : Type}

/-- The number of nodes. -/
def size (p : Pool α) : Nat :=
  p.nodes.length

def get? (p : Pool α) (id : ExprId) : Option (Node α) :=
  p.nodes[id]?

/-- What the node at a position computes. -/
def form? (p : Pool α) (id : ExprId) : Option (Form α) :=
  (p.get? id).map (·.form)

/-- The node at a position, which must exist. -/
def node (p : Pool α) (id : ExprId) : Except (ExprError α) (Node α) :=
  match p.get? id with
  | some n => .ok n
  | none => .error (.unknownExpr id)

/-- The kind of an expression. -/
def kindOf (p : Pool α) (id : ExprId) : Except (ExprError α) Kind :=
  (p.node id).map (·.kind)

/-- The scope of an expression. -/
def scopeOf (p : Pool α) (id : ExprId) : Except (ExprError α) Scope :=
  (p.node id).map (·.scope)

/-- The node exists and its value never changes once computed. -/
def isConstant (p : Pool α) (id : ExprId) : Bool :=
  (p.get? id).any (·.constant)

/-- The value of a literal. -/
def literal? (p : Pool α) (id : ExprId) : Option (Value α) :=
  (p.form? id).bind Form.literal?

/-- The operands of a node; an unknown node has none. -/
def dependencies (p : Pool α) (id : ExprId) : List ExprId :=
  match p.form? id with
  | some form => form.dependencies
  | none => []

/-- The number of a placeholder. -/
def placeholder? (p : Pool α) (id : ExprId) : Option Nat :=
  match p.form? id with
  | some (.placeholder number _) => some number
  | _ => none

/-- Join the scopes of operands onto a scope, from left to right. -/
def joinScopes (p : Pool α) (scope : Scope) : List ExprId → Except (ExprError α) Scope
  | [] => .ok scope
  | id :: rest =>
    match p.scopeOf id with
    | .error e => .error e
    | .ok s =>
      match scope.join? s with
      | some joined => p.joinScopes joined rest
      | none => .error (.scopeMismatch scope s)

variable [Scalar α]

/-- The position of a node that is structurally equal, if there is one. -/
def find? (p : Pool α) (n : Node α) : Option ExprId :=
  p.positions.get? n.canonical

/-- The pool with one more node, entered into the index. -/
def push (p : Pool α) (n : Node α) : Pool α :=
  { p with nodes := p.nodes ++ [n], positions := p.positions.insert n.canonical p.size }

/-- Add a node unless a structurally equal one is there. -/
def intern (n : Node α) : Building α ExprId := fun p =>
  match p.find? n with
  | some id => .ok id p
  | none => .ok p.size (p.push n)

/-- A literal. -/
def constant (value : Value α) : Building α ExprId :=
  intern ⟨.constant value, value.kind, .global, true⟩

/-- A sensor that belongs to no device. -/
def sensor (name : String) (kind : Kind) : Building α ExprId :=
  intern ⟨.sensor name none, kind, .global, false⟩

/-- A sensor of a device, in the context that owns the device. -/
def deviceSensor (host : Host α) (device name : String) (kind : Kind) : Building α ExprId :=
  let scope := match host.contextOf device with
    | some c => Scope.context c
    | none => .global
  intern ⟨.sensor name (some device), kind, scope, false⟩

/-- A value set from outside while the network runs. -/
def input (name : String) (kind : Kind) (scope : Scope) : Building α ExprId :=
  intern ⟨.input name, kind, scope, false⟩

/-- A value supplied with the request to compile. -/
def parameter (name : String) (kind : Kind) : Building α ExprId :=
  intern ⟨.parameter name, kind, .global, true⟩

/-- Seconds since the network was started, or the length of a cycle. -/
def clock (signal : ClockSignal) : Building α ExprId :=
  intern ⟨.clock signal, .double, .global, false⟩

/-- The motion from one frame to another. -/
def relation (source target : String) : Building α ExprId :=
  intern ⟨.relation source target, .transform, .global, false⟩

/-- A new placeholder, different from all others. -/
def placeholder (label : String) (kind : Kind) (scope : Scope) : Building α ExprId := do
  let p ← get
  set { p with nextPlaceholder := p.nextPlaceholder + 1 }
  intern ⟨.placeholder p.nextPlaceholder label, kind, scope, false⟩

end Pool

end SignalNet
