import SignalNet.Net.Error
import SignalNet.Net.Primitive
import SignalNet.Signal
import SignalNet.Table

/-!
# Fragments

A fragment is a network under construction: blocks with typed ports,
connections from outputs to inputs, names for some of the outputs, and a
registry of states and exceptions.  Blocks and ports are identified by their
positions.

Calls on a fragment are computations of type `Wiring`.  They either return a
result or stop with an error, and the fragment stays as it is at that point.
-/

namespace SignalNet

/-- A block of a fragment. -/
structure Block (α : Type) where
  primitive : Primitive α
  /-- The input ports in order. -/
  inputs : List PortId
  /-- The output port; sinks have none. -/
  output : Option PortId
  deriving DecidableEq, Repr

/-- Which way values flow through a port. -/
inductive Direction
  | input
  | output
  deriving DecidableEq, Repr

/-- A port carries values of one kind. -/
structure Port where
  block : BlockId
  direction : Direction
  kind : Kind
  /-- Position among the ports of the block with the same direction. -/
  slot : Nat
  deriving DecidableEq, Repr

/-- A wire from an output port to an input port. -/
structure Connection where
  source : PortId
  target : PortId
  deriving DecidableEq, Repr

/-- A network under construction. -/
structure Fragment (α : Type) where
  blocks : List (Block α) := []
  ports : List Port := []
  /-- In the order in which they were made. -/
  connections : List Connection := []
  outputs : Table String PortId := {}
  signals : Registry := {}
  deriving DecidableEq, Repr

/-- Calls on a fragment. -/
abbrev Wiring (α : Type) := EStateM NetError (Fragment α)

/-- A query that stops with its error. -/
def Wiring.ofExcept {α β : Type} : Except NetError β → Wiring α β
  | .ok b => pure b
  | .error e => throw e

namespace Fragment

variable {α : Type}

/-- The fragment without blocks. -/
def empty : Fragment α := {}

def block (f : Fragment α) (id : BlockId) : Except NetError (Block α) :=
  match f.blocks[id]? with
  | some b => .ok b
  | none => .error (.unknownBlock id)

def port (f : Fragment α) (id : PortId) : Except NetError Port :=
  match f.ports[id]? with
  | some p => .ok p
  | none => .error (.unknownPort id)

/-- The kind of the values that a port carries. -/
def kindOf (f : Fragment α) (id : PortId) : Except NetError Kind :=
  (f.port id).map (·.kind)

/-- The output port of a block. -/
def outputPort (f : Fragment α) (id : BlockId) : Except NetError PortId :=
  match f.block id with
  | .error e => .error e
  | .ok b =>
    match b.output with
    | some p => .ok p
    | none => .error (.noOutput id)

/-- The block that a port belongs to. -/
def owner (f : Fragment α) (id : PortId) : Except NetError BlockId :=
  match f.port id with
  | .error e => .error e
  | .ok p => (f.block p.block).map fun _ => p.block

/-- The output port that drives an input port. -/
def producer? (f : Fragment α) (input : PortId) : Option PortId :=
  (f.connections.find? fun c => decide (c.target = input)).map (·.source)

def isConnected (f : Fragment α) (input : PortId) : Bool :=
  (f.producer? input).isSome

/-- The port that a name stands for. -/
def output? (f : Fragment α) (name : String) : Option PortId :=
  f.outputs.get? name

/-- The names of the inputs to be set from outside, sorted. -/
def inputNames (f : Fragment α) : List String :=
  let names := f.blocks.foldl (fun found b => match b.primitive with
    | .input name => if name ∈ found then found else found ++ [name]
    | _ => found) []
  sortBy textLe names

/-- Input ports of a new block for values of the given kinds. -/
def inputPorts (block : BlockId) (kinds : List Kind) : List Port :=
  kinds.mapIdx fun slot kind => ⟨block, .input, kind, slot⟩

/-- Add a block with an input port for each kind of `inputs` and, unless it is
a sink, an output port.  Its ports are numbered inputs first. -/
def addBlock (primitive : Primitive α) (inputs : List Kind) (output : Option Kind) :
    Wiring α BlockId := fun f =>
  if primitive.arity?.any (· ≠ inputs.length) then
    .error (.arity primitive.name (primitive.arity?.getD 0) inputs.length) f
  else if primitive.isSink ≠ output.isNone then .error .sinkOutput f
  else
    let id := f.blocks.length
    let first := f.ports.length
    let behind := first + inputs.length
    .ok id { f with
      ports := f.ports ++ inputPorts id inputs ++
        (output.map fun kind => (⟨id, .output, kind, 0⟩ : Port)).toList
      blocks := f.blocks ++ [⟨primitive, List.range' first inputs.length,
        output.map fun _ => behind⟩] }

/-- Connect an output port with an input port of the same kind that has no
producer yet. -/
def connect (source target : PortId) : Wiring α Unit := fun f =>
  match f.port source, f.port target with
  | .error e, _ => .error e f
  | .ok _, .error e => .error e f
  | .ok s, .ok t =>
    if s.direction ≠ .output ∨ t.direction ≠ .input then .error (.direction source target) f
    else if s.kind ≠ t.kind then .error (.kinds source s.kind target t.kind) f
    else
      match f.producer? target with
      | some existing => .error (.driven target existing) f
      | none => .ok () { f with connections := f.connections ++ [⟨source, target⟩] }

/-- Add a block without inputs and return its output port. -/
def addSource (primitive : Primitive α) (kind : Kind) : Wiring α PortId := do
  let id ← addBlock primitive [] (some kind)
  Wiring.ofExcept ((← get).outputPort id)

/-- Connect each source with the target across from it, from left to right. -/
def connectAll : List (PortId × PortId) → Wiring α Unit
  | [] => pure ()
  | (source, target) :: rest => do
    connect source target
    connectAll rest

/-- Add a block fed by the given ports and return its output port. -/
def addWired (primitive : Primitive α) (inputs : List PortId) (output : Kind) :
    Wiring α PortId := do
  let kinds ← Wiring.ofExcept (inputs.mapM (← get).kindOf)
  let id ← addBlock primitive kinds (some output)
  let b ← Wiring.ofExcept ((← get).block id)
  connectAll (inputs.zip b.inputs)
  Wiring.ofExcept ((← get).outputPort id)

/-- Give an output port a name.  A name stands for one port. -/
def expose (name : String) (id : PortId) : Wiring α Unit := fun f =>
  match f.port id with
  | .error e => .error e f
  | .ok p =>
    if p.direction ≠ .output then .error (.notOutput name) f
    else
      match f.output? name with
      | some existing =>
        if existing = id then .ok () f else .error (.outputBound name existing) f
      | none => .ok () { f with outputs := f.outputs.insert name id }

/-- Record that a port stands for a state or an exception. -/
def register (signal : Signal) (id : PortId) : Wiring α Unit :=
  modify fun f => { f with signals := f.signals.register signal id }

end Fragment

end SignalNet
