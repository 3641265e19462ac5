import SignalNet.Compile.Parameters
import SignalNet.Proofs.Net.Run
import SignalNet.Proofs.Pool.Construction

/-!
# Expressions as signals

The *course* of a signal gives its value in every cycle.  This module says
what the course of an expression is, by recursion on the pool and without
reference to networks:

* leaves read what surrounds the network in that cycle;
* operators act on the values of the same cycle;
* delays, edges, low passes and rate limiters are recurrences over the cycles.

A setting tells how a constant is carried (`Setting.share`).  Carried as they
are, constants have the values that are written down; a network may carry one
constant in place of another that is structurally equal.

In a well-formed pool operands come before the expressions that use them, so
the recursion reaches every operand (`Pool.course_eq`).
-/

namespace SignalNet

/-- A form that stands for an expression to be built later. -/
def Form.isPlaceholder {α : Type} : Form α → Bool
  | .placeholder _ _ => true
  | _ => false

/-- The values of a signal, cycle by cycle. -/
abbrev Course (α : Type) := Nat → Option (Value α)

namespace Course

variable {α : Type} [Scalar α]

/-- A low pass: it starts at its input, and then moves by a share of the
distance. -/
def smooth (share : Nat → α) (x : Nat → Option α) : Nat → Option α
  | 0 => x 0
  | n + 1 => do
    let before ← smooth share x n
    let now ← x (n + 1)
    return before + (now - before) * share (n + 1)

/-- A rate limiter: it starts at its input, and then moves toward it by at
most a bound. -/
def rateLimit (bound : Nat → α) (x : Nat → Option α) : Nat → Option α
  | 0 => x 0
  | n + 1 => do
    let before ← rateLimit bound x n
    let now ← x (n + 1)
    if Scalar.le (-bound (n + 1)) (bound (n + 1)) then
      return before + clampChange (bound (n + 1)) (now - before)
    else none

omit [Scalar α] in
/-- A delay by one cycle. -/
def pre (initial : Value α) (x : Course α) : Course α
  | 0 => some initial
  | n + 1 => x n

/-- A change in one direction.  Before the first cycle the input was false. -/
def edge (rising : Bool) (x : Nat → Option Bool) : Nat → Option Bool
  | 0 => (x 0).map fun now => rising && now
  | n + 1 => do
    let before ← x n
    let now ← x (n + 1)
    return if rising then now && !before else !now && before

end Course

/-- What the value of an expression depends on besides the expression. -/
structure Setting (α : Type) where
  parameters : Parameters α
  host : Host α
  /-- What surrounds the network in each cycle. -/
  around : Nat → Surroundings α
  /-- The value that is carried for a constant. -/
  share : Value α → Value α := id

namespace Setting

variable {α : Type} [Scalar α]

/-- The motion of a hop in a cycle.  A relation that has not been measured
moves nothing. -/
def hop (σ : Setting α) (n : Nat) : Hop α → Option (Value α)
  | .fixed pose => some (σ.share (.transform pose))
  | .measured sensor _ inverted =>
    let measured := ((σ.around n).sensors.get? sensor).getD (.zero .transform)
    if inverted then UnaryOp.invert.eval? measured else some measured

/-- The motion before, and then the hops of a path, from left to right. -/
def along (σ : Setting α) (n : Nat) : Value α → List (Hop α) → Option (Value α)
  | before, [] => some before
  | before, hop :: rest => do
    let motion ← σ.hop n hop
    let product ← BinaryOp.mul.eval? before motion
    σ.along n product rest

/-- The motion along a path. -/
def motion (σ : Setting α) (n : Nat) : List (Hop α) → Option (Value α)
  | [] => some (σ.share (.transform .identity))
  | hop :: rest => do
    let first ← σ.hop n hop
    σ.along n first rest

end Setting

variable {α : Type} [Scalar α]

/-- The course of a form, from the courses of its operands. -/
def Form.course (σ : Setting α) (kind : Kind) (form : Form α) (operands : List (Course α)) :
    Course α := fun n =>
  match form, operands with
  | .constant v, _ => some (σ.share v)
  | .parameter name, _ => (σ.parameters.value? name).map σ.share
  | .input name, _ => some (((σ.around n).inputs.get? name).getD (.zero kind))
  | .sensor name _, _ => some (((σ.around n).sensors.get? name).getD (.zero kind))
  | .persisted handle, _ =>
    (σ.parameters.slot? handle).map fun slot => ((σ.around n).slots.get? slot).getD (.zero kind)
  | .clock .time, _ => some (.double (σ.around n).time)
  | .clock .period, _ => some (.double (σ.around n).period)
  | .relation source target, _ => (σ.host.path source target).bind (σ.motion n)
  | .smooth _ tau, [x] =>
    (Course.smooth (fun k => Scalar.minNum ((σ.around k).period / tau) 1)
      (fun k => (x k).bind Value.asDouble?) n).map .double
  | .rateLimit _ rate, [x] =>
    (Course.rateLimit (fun k => rate * (σ.around k).period)
      (fun k => (x k).bind Value.asDouble?) n).map .double
  | .pre _ initial, [x] => Course.pre initial x n
  | .edge _ rising, [x] =>
    (Course.edge rising (fun k => (x k).bind Value.asBoolean?) n).map .boolean
  | form, operands => (operands.mapM fun (operand : Course α) => operand n).bind form.eval?

/-- An operator without state acts on the values of the same cycle. -/
theorem Form.course_operator {form : Form α} (hcomposite : form.isComposite = true)
    (hstate : form.isStateful = false) (σ : Setting α) (kind : Kind)
    (operands : List (Course α)) (n : Nat) :
    form.course σ kind operands n =
      (operands.mapM fun (operand : Course α) => operand n).bind form.eval? := by
  cases form with
  | smooth x tau => cases hstate
  | rateLimit x rate => cases hstate
  | pre x initial => cases hstate
  | edge x rising => cases hstate
  | _ => first | rfl | cases hcomposite

namespace Pool

omit [Scalar α] in
/-- The expressions that an expression is built from, itself included. -/
inductive Reaches (p : Pool α) (root : ExprId) : ExprId → Prop
  | root : Reaches p root root
  | operand {id d : ExprId} {n : Node α} (h : Reaches p root id) (hn : p.get? id = some n)
      (hd : d ∈ n.dependencies) : Reaches p root d

/-- The course of an expression, at most `fuel` operands deep. -/
def courseWithin (p : Pool α) (σ : Setting α) : (fuel : Nat) → ExprId → Course α
  | 0, _ => fun _ => none
  | fuel + 1, id =>
    match p.get? id with
    | none => fun _ => none
    | some n => n.form.course σ n.kind (n.dependencies.map (p.courseWithin σ fuel))

/-- The course of an expression.  Operands stand before the nodes that use
them, so no chain of operands is longer than the position of the
expression. -/
def course (p : Pool α) (σ : Setting α) (id : ExprId) : Course α :=
  p.courseWithin σ (id + 1) id

/-- More fuel does not change the course of an expression. -/
theorem courseWithin_eq {p : Pool α} (hp : p.WellFormed) (σ : Setting α) {id fuel fuel' : Nat}
    (hfuel : id < fuel) (hfuel' : id < fuel') :
    p.courseWithin σ fuel id = p.courseWithin σ fuel' id := by
  induction fuel generalizing id fuel' with
  | zero => omega
  | succ fuel ih =>
      cases fuel' with
      | zero => omega
      | succ fuel' =>
          rw [courseWithin, courseWithin]
          cases hn : p.get? id with
          | none => rfl
          | some n =>
              have hoperands : n.dependencies.map (p.courseWithin σ fuel) =
                  n.dependencies.map (p.courseWithin σ fuel') := by
                apply List.map_congr_left
                intro d hd
                have hlt : d < id := hp.before hn d hd
                exact ih (Nat.lt_of_lt_of_le hlt (Nat.le_of_lt_succ hfuel))
                  (Nat.lt_of_lt_of_le hlt (Nat.le_of_lt_succ hfuel'))
              simp only [hoperands]

/-- The course of an expression comes from the courses of its operands. -/
theorem course_eq {p : Pool α} (hp : p.WellFormed) (σ : Setting α) {id : ExprId} {n : Node α}
    (hn : p.get? id = some n) :
    p.course σ id = n.form.course σ n.kind (n.dependencies.map (p.course σ)) := by
  have hoperands : n.dependencies.map (p.courseWithin σ id) = n.dependencies.map (p.course σ) := by
    apply List.map_congr_left
    intro d hd
    exact courseWithin_eq hp σ (hp.before hn d hd) (Nat.lt_succ_self d)
  rw [course, courseWithin, hn, ← hoperands]

end Pool

end SignalNet
