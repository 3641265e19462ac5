import SignalNet.Net.Primitive
import SignalNet.Operator.Eval
import SignalNet.Table

/-!
# Reactions of primitives

What a primitive puts out in a cycle is a function of three things: its
surroundings (clock, inputs, sensors, slots), its own memory from the previous
cycle, and its arguments.  The same function says what it remembers for the
next cycle.  Delays and sinks do not react; they act at the end of the cycle.
-/

namespace SignalNet

variable {α : Type} [Scalar α]

/-- What a block remembers from one cycle to the next. -/
inductive Memory (α : Type)
  /-- The last output of a filter. -/
  | filter (y : α)
  /-- The last input of a delay. -/
  | delay (value : Value α)
  /-- The last input of an edge detector. -/
  | edge (input : Bool)
  /-- A latch is on. -/
  | latch (on : Bool)
  /-- For how many seconds the input of a timer has been true. -/
  | timer (elapsed : Option α)
  deriving DecidableEq, Repr

/-- What surrounds the blocks of a network in a cycle. -/
structure Surroundings (α : Type) where
  period : α
  /-- Time at the start of the cycle. -/
  time : α
  inputs : Table String (Value α) := {}
  sensors : Table String (Value α) := {}
  slots : Table Nat (Value α) := {}
  deriving DecidableEq, Repr

/-- Why a primitive does not react. -/
inductive Fault
  /-- The arguments do not fit. -/
  | rejected
  /-- A rate limiter whose step is negative or a NaN has no range to keep to. -/
  | emptyRange
  deriving DecidableEq, Repr

/-- A result that may not exist. -/
def orRejected {β : Type} : Option β → Except Fault β
  | some b => .ok b
  | none => .error .rejected

/-- The output of a low pass.  It starts at its input. -/
def smoothed (period timeConstant x : α) : Option (Memory α) → α
  | some (.filter y) => y + (x - y) * Scalar.minNum (period / timeConstant) 1
  | _ => x

/-- A change kept between `-step` and `step`. -/
def clampChange (step d : α) : α :=
  if Scalar.lt d (-step) then -step else if Scalar.lt step d then step else d

/-- The output of a rate limiter.  It starts at its input. -/
def rateLimited (step x : α) : Option (Memory α) → Except Fault α
  | some (.filter y) =>
    if Scalar.le (-step) step then .ok (y + clampChange step (x - y)) else .error .emptyRange
  | _ => .ok x

omit [Scalar α] in
/-- An edge from the remembered input to `now`.  Before the first cycle the
input was false. -/
def hasEdge (rising now : Bool) (memory : Option (Memory α)) : Bool :=
  let before := match memory with
    | some (.edge b) => b
    | _ => false
  if rising then now && !before else !now && before

omit [Scalar α] in
/-- A latch is on when set, and stays on until reset. -/
def latched (set reset : Bool) (memory : Option (Memory α)) : Bool :=
  let held := match memory with
    | some (.latch b) => b
    | _ => false
  set || (held && !reset)

/-- For how long the input has been true, counted from the cycle in which it
became true. -/
def elapsed (period : α) (on : Bool) (memory : Option (Memory α)) : Option α :=
  if on then
    match memory with
    | some (.timer (some e)) => some (e + period)
    | _ => some 0
  else none

/-- The time elapsed reaches the duration, up to a nanosecond. -/
def hasElapsed (duration : α) (time : Option α) : Bool :=
  time.any fun e => Scalar.le duration (e + Scalar.decimal 1 9)

namespace Primitive

/-- The output of a primitive and what it remembers.  `kind` is the kind of
its output port. -/
def react (around : Surroundings α) (kind : Kind) (memory : Option (Memory α)) :
    Primitive α → List (Value α) → Except Fault (Value α × Option (Memory α))
  | constant v, [] => .ok (v, none)
  | input name, [] => .ok ((around.inputs.get? name).getD (.zero kind), none)
  | sensor name _, [] => .ok ((around.sensors.get? name).getD (.zero kind), none)
  | load slot, [] => .ok ((around.slots.get? slot).getD (.zero kind), none)
  | clock .time, [] => .ok (.double around.time, none)
  | clock .period, [] => .ok (.double around.period, none)
  | unary op, [x] => (orRejected (op.eval? x)).map (·, none)
  | binary op, [x, y] => (orRejected (op.eval? x y)).map (·, none)
  | compare op, [x, y] => (orRejected (op.eval? x y)).map (·, none)
  | select, [c, t, f] => (orRejected (Value.select? c t f)).map (·, none)
  | limit, [x, lo, hi] => (orRejected (Value.limit? x lo hi)).map (·, none)
  | index position, [x] => (orRejected (x.index? position)).map (·, none)
  | pack, parts => (orRejected (Value.pack? parts)).map (·, none)
  | compose c, parts => (orRejected (Value.compose? c parts)).map (·, none)
  | identity, [x] => .ok (x, none)
  | smooth tau, [.double x] =>
    let y := smoothed around.period tau x memory
    .ok (.double y, some (.filter y))
  | rateLimit rate, [.double x] => do
    let y ← rateLimited (rate * around.period) x memory
    return (.double y, some (.filter y))
  | edge rising, [.boolean now] => .ok (.boolean (hasEdge rising now memory), some (.edge now))
  | latch, [.boolean set, .boolean reset] =>
    let on := latched set reset memory
    .ok (.boolean on, some (.latch on))
  | timer duration, [.boolean on] =>
    let time := elapsed around.period on memory
    .ok (.boolean (hasElapsed duration time), some (.timer time))
  | anyOf, terms => do
    let bs ← orRejected (terms.mapM Value.asBoolean?)
    return (.boolean (bs.any id), none)
  | allOf, terms => do
    let bs ← orRejected (terms.mapM Value.asBoolean?)
    return (.boolean (bs.all id), none)
  | _, _ => .error .rejected

end Primitive

end SignalNet
