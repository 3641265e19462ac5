import SignalNet.Expr.Pool

/-!
# Kinds of composite expressions

`Pool.infer` gives the kind of a form whose operands are in the pool, and
rejects operands of the wrong kind and parameters out of range.
-/

namespace SignalNet.Pool

variable {α : Type} [Scalar α]

/-- A result kind, or the complaint that the operands do not fit. -/
def fitting (operator : String) (operands : List Kind) :
    Option Kind → Except (ExprError α) Kind
  | some k => .ok k
  | none => .error (.typeMismatch operator operands)

/-- Two literal bounds are in the wrong order. -/
def areReversed : (lower upper : Value α) → Bool
  | .double lo, .double hi => Scalar.lt hi lo
  | .integer lo, .integer hi => decide (hi < lo)
  | _, _ => false

/-- A parameter of a filter must be finite and positive. -/
def positive (what : String) (complaint : InvalidArgument α) (x : α) :
    Except (ExprError α) Unit :=
  match Scalar.ensureFinite what x with
  | .error e => .error (.nonFinite e)
  | .ok x => if Scalar.le x 0 then .error (.invalidArgument complaint) else .ok ()

/-- The kind of a composite form. -/
def infer (p : Pool α) : Form α → Except (ExprError α) Kind
  | .unary op x => do
    let k ← p.kindOf x
    fitting op.name [k] (op.resultKind? k)
  | .binary op x y => do
    let k ← p.kindOf x
    let l ← p.kindOf y
    fitting op.name [k, l] (op.resultKind? k l)
  | .compare op x y => do
    let k ← p.kindOf x
    let l ← p.kindOf y
    fitting op.name [k, l] (op.resultKind? k l)
  | .select c t f => do
    let kc ← p.kindOf c
    let kt ← p.kindOf t
    let kf ← p.kindOf f
    fitting "select" [kc, kt, kf] (if kc = .boolean ∧ kt = kf then some kt else none)
  | .limit x lo hi => do
    let k ← p.kindOf x
    let klo ← p.kindOf lo
    let khi ← p.kindOf hi
    let kind ← fitting "limit" [k, klo, khi]
      (if k.isNumeric ∧ klo = k ∧ khi = k then some k else none)
    match p.literal? lo, p.literal? hi with
    | some l, some h =>
      if areReversed l h then .error (.invalidArgument (.limitsReversed l h)) else .ok kind
    | _, _ => .ok kind
  | .smooth x tau => do
    let k ← p.kindOf x
    let kind ← fitting "smooth" [k] (if k = .double then some k else none)
    positive "smoothing time constant" .timeConstantNotPositive tau
    return kind
  | .rateLimit x rate => do
    let k ← p.kindOf x
    let kind ← fitting "rate_limit" [k] (if k = .double then some k else none)
    positive "rate limit" .rateNotPositive rate
    return kind
  | .pre x initial => do
    let k ← p.kindOf x
    fitting "pre" [k, initial.kind] (if initial.kind = k then some k else none)
  | .edge x _ => do
    let k ← p.kindOf x
    fitting "edge" [k] (if k = .boolean then some k else none)
  | .pack parts =>
    if parts.isEmpty then .error (.invalidArgument .emptyPack)
    else do
      let kinds ← parts.mapM p.kindOf
      fitting "pack" kinds (if kinds.all (· == .double) then some (.array parts.length) else none)
  | .index x position => do
    let k ← p.kindOf x
    match k.length?, k.element? with
    | some length, some element =>
      if position < length then .ok element else .error (.indexOutOfBounds position length)
    | _, _ => .error (.typeMismatch "index" [k])
  | .compose c parts => do
    let kinds ← parts.mapM p.kindOf
    fitting "compose" kinds (if kinds = c.parts then some c.kind else none)
  | .custom c => do
    let _ ← c.operands.mapM p.kindOf
    return c.kind
  | form => .error (.invalidArgument (.leaf form.typeName))

end SignalNet.Pool
