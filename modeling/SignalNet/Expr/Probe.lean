import SignalNet.Expr.Simplify

/-!
# Probes

Two questions about an expression can be answered without running a network:
whether its value is known already (`Pool.cheapValue?`), and whether the host
can compute it (`Pool.isAvailable`).  Probes never fail: an unknown expression
has no value and is not available.

Both walk down the operands and remember what they have found, since
expressions share their operands.
-/

namespace SignalNet

variable {α : Type} [Scalar α]

/-- The motion along a path, from the last readings of its sensors. -/
def Host.relationValue? (host : Host α) (source target : String) : Option (Value α) := do
  let path ← host.path source target
  let pose ← path.foldlM (fun acc hop => do
    match hop with
    | .fixed pose => return Scalar.compose acc pose
    | .measured sensor _ inverted =>
      let pose ← (← host.reading sensor).asTransform?
      return Scalar.compose acc (if inverted then Scalar.inverse pose else pose)) Pose.identity
  return .transform pose

omit [Scalar α] in
/-- Two frames are connected and all devices on the way are present. -/
def Host.relationAvailable (host : Host α) (source target : String) : Bool :=
  match host.path source target with
  | none => false
  | some path => path.all fun
    | .fixed _ => true
    | .measured _ device _ => device.all host.isPresent

namespace Pool

/-- What a probe has found so far. -/
abbrev Found (β : Type) := Table ExprId β

/-- Enter a finding. -/
def remember {β : Type} (id : ExprId) (b : β) : StateM (Found β) β := fun found =>
  (b, found.insert id b)

/-- Probe operands from left to right, up to the first without a value. -/
def cheapAll (one : ExprId → StateM (Found (Option (Value α))) (Option (Value α))) :
    List ExprId → StateM (Found (Option (Value α))) (Option (List (Value α)))
  | [] => pure (some [])
  | id :: rest => do
    match ← one id with
    | none => pure none
    | some v => return (← cheapAll one rest).map (v :: ·)

/-- The known value of an expression, at most `fuel` operands deep.  An
operator with an unknown operand is not remembered. -/
def cheapWithin (p : Pool α) (host : Host α) :
    (fuel : Nat) → ExprId → StateM (Found (Option (Value α))) (Option (Value α))
  | 0, _ => pure none
  | fuel + 1, id => do
    match (← get).get? id, p.get? id with
    | some v, _ => pure v
    | none, none => pure none
    | none, some n =>
      match n.form with
      | .constant v => remember id (some v)
      | .sensor name _ =>
        remember id ((host.reading name).filter fun v => decide (v.kind = n.kind))
      | .relation source target => remember id (host.relationValue? source target)
      | .smooth x _ | .rateLimit x _ =>
        if p.isConstant x then do remember id (← p.cheapWithin host fuel x)
        else remember id none
      | form =>
        if form.isPure then do
          match ← cheapAll (p.cheapWithin host fuel) form.dependencies with
          | none => pure none
          | some args => remember id (form.eval? args)
        else remember id none

/-- The value of an expression that is known without running a network.
Operands stand before the nodes that use them, so no chain of operands is
longer than the position of the expression. -/
def cheapValue? (p : Pool α) (host : Host α) (id : ExprId) : Option (Value α) :=
  (p.cheapWithin host (id + 1) id .empty).1

omit [Scalar α] in
/-- Probe operands from left to right, up to the first not available. -/
def availableAll (one : ExprId → StateM (Found Bool) Bool) : List ExprId → StateM (Found Bool) Bool
  | [] => pure true
  | id :: rest => do
    if ← one id then availableAll one rest else pure false

omit [Scalar α] in
/-- The host can compute an expression, at most `fuel` operands deep. -/
def availableWithin (p : Pool α) (host : Host α) :
    (fuel : Nat) → ExprId → StateM (Found Bool) Bool
  | 0, _ => pure false
  | fuel + 1, id => do
    match (← get).get? id, p.get? id with
    | some b, _ => pure b
    | none, none => pure false
    | none, some n =>
      match n.form with
      | .sensor _ (some device) => remember id (host.isPresent device)
      | .relation source target => remember id (host.relationAvailable source target)
      | form => do remember id (← availableAll (p.availableWithin host fuel) form.dependencies)

omit [Scalar α] in
/-- The host can compute an expression: all its devices are present and all
its frames are connected. -/
def isAvailable (p : Pool α) (host : Host α) (id : ExprId) : Bool :=
  (p.availableWithin host (id + 1) id .empty).1

end Pool

end SignalNet
