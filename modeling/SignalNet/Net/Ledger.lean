import SignalNet.Net.Fragment

/-!
# Fragments with their books

A fragment identifies blocks and ports by their positions, and looks for the
producer of an input among the wires.  A builder that answers such questions
at once keeps books: every block and every port carries its number, and a
table of producers stands beside the list of wires.

`Ledger` is that builder.  Its calls do the same checks in the same order as
those on fragments, and stop at the same points; what they write is written
into each book on its own.
-/

namespace SignalNet

/-- An entry of a table that carries its number. -/
structure Numbered (β : Type) where
  id : Nat
  content : β
  deriving DecidableEq, Repr

/-- A fragment with the numbers of its blocks and ports and a table of the
producers. -/
structure Ledger (α : Type) where
  blocks : List (Numbered (Block α)) := []
  ports : List (Numbered Port) := []
  /-- In the order in which they were made. -/
  connections : List Connection := []
  /-- The producer of each connected input. -/
  producers : Table PortId PortId := {}
  outputs : Table String PortId := {}
  signals : Registry := {}
  deriving DecidableEq, Repr

/-- Calls on a ledger. -/
abbrev Writing (α : Type) := EStateM NetError (Ledger α)

/-- A query that stops with its error. -/
def Writing.ofExcept {α β : Type} : Except NetError β → Writing α β
  | .ok b => pure b
  | .error e => throw e

namespace Ledger

variable {α : Type}

/-- The ledger without blocks. -/
def empty : Ledger α := {}

def block (l : Ledger α) (id : BlockId) : Except NetError (Block α) :=
  match l.blocks[id]? with
  | some entry => .ok entry.content
  | none => .error (.unknownBlock id)

def port (l : Ledger α) (id : PortId) : Except NetError Port :=
  match l.ports[id]? with
  | some entry => .ok entry.content
  | none => .error (.unknownPort id)

def kindOf (l : Ledger α) (id : PortId) : Except NetError Kind :=
  (l.port id).map (·.kind)

def outputPort (l : Ledger α) (id : BlockId) : Except NetError PortId :=
  match l.block id with
  | .error e => .error e
  | .ok b =>
    match b.output with
    | some p => .ok p
    | none => .error (.noOutput id)

/-- The output port that drives an input port, as the table has it. -/
def producer? (l : Ledger α) (input : PortId) : Option PortId :=
  l.producers.get? input

/-- The port that a name stands for. -/
def output? (l : Ledger α) (name : String) : Option PortId :=
  l.outputs.get? name

/-- Enter a port under the next number. -/
def addPort (port : Port) : Writing α PortId := fun l =>
  .ok l.ports.length { l with ports := l.ports ++ [⟨l.ports.length, port⟩] }

/-- Enter ports one after the other. -/
def addPorts : List Port → Writing α (List PortId)
  | [] => pure []
  | port :: rest => do
    let id ← addPort port
    let ids ← addPorts rest
    return id :: ids

/-- Enter the output port of a block that has one. -/
def addOutput (block : BlockId) : Option Kind → Writing α (Option PortId)
  | none => pure none
  | some kind => do
    let id ← addPort ⟨block, .output, kind, 0⟩
    return some id

/-- Enter a block under a number. -/
def pushBlock (id : BlockId) (b : Block α) : Writing α Unit :=
  modify fun l => { l with blocks := l.blocks ++ [⟨id, b⟩] }

/-- Add a block.  Its ports are entered before the block itself, inputs
first. -/
def addBlock (primitive : Primitive α) (inputs : List Kind) (output : Option Kind) :
    Writing α BlockId := do
  if primitive.arity?.any (· ≠ inputs.length) then
    throw (.arity primitive.name (primitive.arity?.getD 0) inputs.length)
  else if primitive.isSink ≠ output.isNone then throw .sinkOutput
  else
    let id := (← get).blocks.length
    let inputs ← addPorts (Fragment.inputPorts id inputs)
    let output ← addOutput id output
    pushBlock id ⟨primitive, inputs, output⟩
    return id

/-- Connect an output port with an input port that the table of producers does
not hold yet.  The wire goes into both books. -/
def connect (source target : PortId) : Writing α Unit := fun l =>
  match l.port source, l.port target with
  | .error e, _ => .error e l
  | .ok _, .error e => .error e l
  | .ok s, .ok t =>
    if s.direction ≠ .output ∨ t.direction ≠ .input then .error (.direction source target) l
    else if s.kind ≠ t.kind then .error (.kinds source s.kind target t.kind) l
    else
      match l.producer? target with
      | some existing => .error (.driven target existing) l
      | none => .ok () { l with
          producers := l.producers.insert target source
          connections := l.connections ++ [⟨source, target⟩] }

/-- Add a block without inputs and return its output port. -/
def addSource (primitive : Primitive α) (kind : Kind) : Writing α PortId := do
  let id ← addBlock primitive [] (some kind)
  Writing.ofExcept ((← get).outputPort id)

/-- Connect each source with the target across from it, from left to right. -/
def connectAll : List (PortId × PortId) → Writing α Unit
  | [] => pure ()
  | (source, target) :: rest => do
    connect source target
    connectAll rest

/-- Add a block fed by the given ports and return its output port. -/
def addWired (primitive : Primitive α) (inputs : List PortId) (output : Kind) :
    Writing α PortId := do
  let kinds ← Writing.ofExcept (inputs.mapM (← get).kindOf)
  let id ← addBlock primitive kinds (some output)
  let b ← Writing.ofExcept ((← get).block id)
  connectAll (inputs.zip b.inputs)
  Writing.ofExcept ((← get).outputPort id)

/-- Give an output port a name.  A name that stands for the port already is
written once more. -/
def expose (name : String) (id : PortId) : Writing α Unit := fun l =>
  match l.port id with
  | .error e => .error e l
  | .ok p =>
    if p.direction ≠ .output then .error (.notOutput name) l
    else
      match l.output? name with
      | some existing =>
        if existing ≠ id then .error (.outputBound name existing) l
        else .ok () { l with outputs := l.outputs.insert name id }
      | none => .ok () { l with outputs := l.outputs.insert name id }

/-- Record that a port stands for a state or an exception. -/
def register (signal : Signal) (id : PortId) : Writing α Unit :=
  modify fun l => { l with signals := l.signals.register signal id }

end Ledger

end SignalNet
