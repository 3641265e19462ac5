import SignalNet.Net.Order
import SignalNet.Net.Reaction
import SignalNet.Value.Text

/-!
# Simulation

A simulator runs a complete fragment cycle by cycle.  In each cycle every
block is evaluated once, in evaluation order: delays put out what they
remember, all other blocks react to their arguments.  At the end of the cycle
delays remember their inputs and sinks fill their slots.

A cycle that fails stops where it fails: blocks evaluated before have their
new outputs and memories, but delays, slots and the clock are as they were.
-/

namespace SignalNet

variable {α : Type}

/-- Why a simulation stops. -/
inductive SimError (α : Type)
  /-- The cycle period is not positive. -/
  | period
  /-- The fragment is not complete. -/
  | net (cause : NetError)
  /-- An argument has no value yet. -/
  | noValue (input : PortId) (block : BlockId)
  | noOutput (block : BlockId)
  /-- A primitive does not accept its arguments. -/
  | rejected (primitive : String) (block : BlockId) (args : List (Value α))
  /-- A rate limiter has no range to keep to. -/
  | emptyRange (block : BlockId)
  deriving DecidableEq, Repr

/-- The sentence of a simulation error, if it has one: an argument list with a
vector or a transform, and a rate limiter without range, have none. -/
def SimError.message? : SimError Float → Option String
  | period => some "Invalid argument: cycle period must be positive"
  | net cause => some cause.message
  | noValue input block =>
    some ("Simulation error: input " ++ Ident.text input ++ " of block " ++ Ident.text block ++
      " has no value")
  | noOutput block => some ("Simulation error: block " ++ Ident.text block ++ " has no output")
  | rejected primitive block args =>
    (argumentsText? args).map fun text =>
      "Simulation error: '" ++ primitive ++ "' block " ++ Ident.text block ++
        " cannot evaluate " ++ text
  | emptyRange _ => none

/-- A running network. -/
structure Simulator (α : Type) where
  fragment : Fragment α
  order : List BlockId
  around : Surroundings α
  /-- The number of completed cycles. -/
  cycles : Nat := 0
  /-- What the output ports carry. -/
  values : Table PortId (Value α) := {}
  memories : Table BlockId (Memory α) := {}
  deriving DecidableEq, Repr

/-- What is set from outside between two cycles. -/
structure Stimulus (α : Type) where
  inputs : List (String × Value α) := []
  sensors : List (String × Value α) := []
  slots : List (Nat × Value α) := []
  deriving DecidableEq, Repr

/-- Steps of a running network. -/
abbrev Simulating (α : Type) := EStateM (SimError α) (Simulator α)

namespace Simulator

/-- Start a complete fragment with cycles of `period` seconds. -/
def start [Scalar α] (f : Fragment α) (period : α) : Except (SimError α) (Simulator α) :=
  if !(Scalar.isFinite period && Scalar.lt 0 period) then .error .period
  else
    match f.validate, f.evaluationOrder with
    | .error e, _ => .error (.net e)
    | .ok _, .error e => .error (.net e)
    | .ok _, .ok order => .ok { fragment := f, order, around := { period, time := 0 } }

/-- Set an input from outside. -/
def setInput (s : Simulator α) (name : String) (v : Value α) : Simulator α :=
  { s with around := { s.around with inputs := s.around.inputs.insert name v } }

/-- Set the reading of a sensor. -/
def setSensor (s : Simulator α) (name : String) (v : Value α) : Simulator α :=
  { s with around := { s.around with sensors := s.around.sensors.insert name v } }

/-- Fill a slot. -/
def setSlot (s : Simulator α) (slot : Nat) (v : Value α) : Simulator α :=
  { s with around := { s.around with slots := s.around.slots.insert slot v } }

/-- Set everything that a stimulus sets. -/
def feed (s : Simulator α) (x : Stimulus α) : Simulator α :=
  let s := x.inputs.foldl (fun s (name, v) => s.setInput name v) s
  let s := x.sensors.foldl (fun s (name, v) => s.setSensor name v) s
  x.slots.foldl (fun s (slot, v) => s.setSlot slot v) s

/-- What a slot keeps. -/
def slot? (s : Simulator α) (slot : Nat) : Option (Value α) :=
  s.around.slots.get? slot

/-- What an output port carries after the last cycle. -/
def value? (s : Simulator α) (port : PortId) : Option (Value α) :=
  s.values.get? port

/-- The double that an output port carries. -/
def double? (s : Simulator α) (port : PortId) : Option α :=
  (s.value? port).bind Value.asDouble?

/-- The boolean that an output port carries. -/
def boolean? (s : Simulator α) (port : PortId) : Option Bool :=
  (s.value? port).bind Value.asBoolean?

/-- What a named output carries. -/
def output? (s : Simulator α) (name : String) : Option (Value α) :=
  (s.fragment.output? name).bind s.value?

/-- The value at an input port: what its producer carries. -/
def argument (s : Simulator α) (block : BlockId) (input : PortId) :
    Except (SimError α) (Value α) :=
  match (s.fragment.producer? input).bind s.value? with
  | some v => .ok v
  | none => .error (.noValue input block)

/-- The values at the inputs of a block. -/
def arguments (s : Simulator α) (id : BlockId) (b : Block α) :
    Except (SimError α) (List (Value α)) :=
  b.inputs.mapM (s.argument id)

/-- Put a value out. -/
def put (s : Simulator α) (port : PortId) (v : Value α) : Simulator α :=
  { s with values := s.values.insert port v }

/-- Remember something for the next cycle. -/
def remember (s : Simulator α) (id : BlockId) : Option (Memory α) → Simulator α
  | some m => { s with memories := s.memories.insert id m }
  | none => s

/-- What a delay puts out: what it remembers, `initial` in the first cycle. -/
def delayed (s : Simulator α) (id : BlockId) (initial : Value α) : Value α :=
  match s.memories.get? id with
  | some (.delay v) => v
  | _ => initial

/-- The block at a position, and its output port. -/
def blockAt (s : Simulator α) (id : BlockId) : Except (SimError α) (Block α) :=
  (s.fragment.block id).mapError .net

variable [Scalar α]

/-- Let a block that is neither delay nor sink react. -/
def reactAt (s : Simulator α) (id : BlockId) (b : Block α) : Except (SimError α) (Simulator α) :=
  match s.arguments id b, b.output with
  | .error e, _ => .error e
  | .ok _, none => .error (.noOutput id)
  | .ok args, some port =>
    match s.fragment.kindOf port with
    | .error e => .error (.net e)
    | .ok kind =>
      match b.primitive.react s.around kind (s.memories.get? id) args with
      | .error .rejected => .error (.rejected b.primitive.name id args)
      | .error .emptyRange => .error (.emptyRange id)
      | .ok (v, m) => .ok ((s.remember id m).put port v)

/-- Evaluate one block. -/
def evaluate (s : Simulator α) (id : BlockId) : Except (SimError α) (Simulator α) :=
  match s.blockAt id with
  | .error e => .error e
  | .ok b =>
    match b.primitive with
    | .pre initial =>
      match b.output with
      | none => .error (.noOutput id)
      | some port => .ok (s.put port (s.delayed id initial))
    | .store _ => .ok s
    | _ => s.reactAt id b

omit [Scalar α] in
/-- What a block does at the end of a cycle: a delay remembers its input, a
sink fills its slot. -/
def conclude (s : Simulator α) (id : BlockId) : Except (SimError α) (Simulator α) :=
  match s.blockAt id with
  | .error e => .error e
  | .ok b =>
    match b.primitive with
    | .pre _ =>
      match s.arguments id b with
      | .error e => .error e
      | .ok args => .ok (s.remember id (args.head?.map .delay))
    | .store slot =>
      match s.arguments id b with
      | .error e => .error e
      | .ok args =>
        match args.head? with
        | some v => .ok (s.setSlot slot v)
        | none => .ok s
    | _ => .ok s

omit [Scalar α] in
/-- Do something at each block in turn, and stop at the first error. -/
def sweep (act : Simulator α → BlockId → Except (SimError α) (Simulator α)) :
    List BlockId → Simulating α Unit
  | [] => pure ()
  | id :: rest => fun s =>
    match act s id with
    | .error e => .error e s
    | .ok next => sweep act rest next

/-- Count a completed cycle. -/
def tick (s : Simulator α) : Simulator α :=
  { s with
    cycles := s.cycles + 1
    around := { s.around with time := s.around.time + s.around.period } }

/-- Run one cycle. -/
def step : Simulating α Unit := do
  let order := (← get).order
  sweep evaluate order
  sweep conclude order
  modify tick

/-- Run `n` cycles. -/
def run : (n : Nat) → Simulating α Unit
  | 0 => pure ()
  | n + 1 => do
    step
    run n

end Simulator

end SignalNet
