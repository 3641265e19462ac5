import SignalNet.Net.Fragment

/-!
# Evaluation order

Within a cycle, a block is evaluated after the blocks that feed it; delays are
free, since they repeat the previous cycle.  Among the blocks that are ready
the one with the lowest number comes first, so the order is determined by the
fragment.

Each block has a counter of the wires into it whose sources have not been
placed yet.  Placing a block lowers the counters behind its wires, and a block
is ready when its counter reaches zero.
-/

namespace SignalNet

/-- A wire seen from block to block. -/
structure Edge where
  source : BlockId
  target : BlockId
  deriving DecidableEq, Repr

namespace Fragment

variable {α : Type}

/-- The wire that constrains the order, if the connection does: connections
into delays do not. -/
def edge? (f : Fragment α) (c : Connection) : Option Edge := do
  let source ← f.ports[c.source]?
  let target ← f.ports[c.target]?
  let b ← f.blocks[target.block]?
  if b.primitive.isDelay then none else some ⟨source.block, target.block⟩

/-- The wires that constrain the order, as often as they were made. -/
def edges (f : Fragment α) : List Edge :=
  f.connections.filterMap f.edge?

end Fragment

/-- Where the ordering of blocks stands. -/
structure Placement where
  /-- For each block, the wires into it from blocks not placed yet. -/
  pending : List Nat
  /-- The blocks that can be placed, in ascending order. -/
  ready : List BlockId
  /-- The blocks placed so far, the last one first. -/
  placed : List BlockId
  deriving DecidableEq, Repr

namespace Placement

/-- Insert into an ascending list. -/
def insertAscending (b : BlockId) : List BlockId → List BlockId
  | [] => [b]
  | c :: rest => if b ≤ c then b :: c :: rest else c :: insertAscending b rest

/-- Before any block is placed. -/
def start (blocks : Nat) (edges : List Edge) : Placement :=
  let pending := (List.range blocks).map fun b => edges.countP fun e => e.target == b
  { pending
    ready := (List.range blocks).filter fun b => pending[b]? == some 0
    placed := [] }

/-- A wire into block `b` has its source placed. -/
def release (s : Placement) (b : BlockId) : Placement :=
  let pending := s.pending.modify b (· - 1)
  { s with
    pending
    ready := if pending[b]? == some 0 then insertAscending b s.ready else s.ready }

/-- Place the lowest block that is ready, if there is one. -/
def place? (edges : List Edge) (s : Placement) : Option Placement :=
  match s.ready with
  | [] => none
  | b :: rest =>
    let targets := (edges.filter fun e => e.source == b).map (·.target)
    some (targets.foldl release { s with ready := rest, placed := b :: s.placed })

/-- Place at most `fuel` blocks. -/
def run (edges : List Edge) : (fuel : Nat) → Placement → Placement
  | 0, s => s
  | fuel + 1, s =>
    match s.place? edges with
    | none => s
    | some next => run edges fuel next

end Placement

namespace Fragment

variable {α : Type}

/-- All blocks, each behind the blocks that feed it.  There is no such order
if a loop is not broken by a delay. -/
def evaluationOrder (f : Fragment α) : Except NetError (List BlockId) :=
  let count := f.blocks.length
  let order := (Placement.run f.edges count (.start count f.edges)).placed.reverse
  if order.length = count then .ok order else .error .cycle

/-- The first input port without a producer. -/
def openInput? (f : Fragment α) : Option Port :=
  (f.ports.zipIdx.find? fun (p, id) => p.direction == .input && !f.isConnected id).map (·.1)

/-- Every input has a producer and every loop is broken by a delay. -/
def validate (f : Fragment α) : Except NetError Unit :=
  match f.openInput? with
  | some p =>
    match f.block p.block with
    | .error e => .error e
    | .ok b => .error (.openInput p.slot b.primitive.name p.block)
  | none => f.evaluationOrder.map fun _ => ()

end Fragment

end SignalNet
