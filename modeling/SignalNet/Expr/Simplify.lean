import SignalNet.Expr.Pool
import SignalNet.Operator.Eval

/-!
# Folding

With folding on, a composite form is simplified before it is added to a pool:

* operators on literals are evaluated,
* literals move to the right of operators that commute,
* neutral operands, double negations and idle selections disappear,
* `(x + a) + b` becomes `x + (a + b)` for literals `a` and `b`, likewise for
  products,
* filters of literals are the literals, and edges of literals never occur.

`Pool.simplify` only decides what to do; it does not change the pool.
-/

namespace SignalNet

variable {α : Type} [Scalar α]

/-- What becomes of a form that is about to be added. -/
inductive Simplified (α : Type)
  /-- Add the form as it is. -/
  | keep
  /-- The form is an expression that exists. -/
  | existing (id : ExprId)
  /-- The form is a literal. -/
  | value (v : Value α)
  /-- Build another form instead. -/
  | instead (form : Form α)
  /-- Build `x op c` instead, for a literal `c`. -/
  | merge (op : BinaryOp) (x : ExprId) (c : Value α)

/-- The value of a form without state, from the values of its operands. -/
def Form.eval? : Form α → List (Value α) → Option (Value α)
  | .unary op _, [x] => op.eval? x
  | .binary op _ _, [x, y] => op.eval? x y
  | .compare op _ _, [x, y] => op.eval? x y
  | .select _ _ _, [c, t, f] => Value.select? c t f
  | .limit _ _ _, [x, lo, hi] => Value.limit? x lo hi
  | .index _ position, [x] => x.index? position
  | .pack _, parts => Value.pack? parts
  | .compose c _, parts => Value.compose? c parts
  | _, _ => none

/-- A form that computes its value from its operands alone. -/
def Form.isPure : Form α → Bool
  | .custom _ => false
  | form => !form.isLeaf && !form.isStateful

namespace Pool

/-- The value of a pure form whose operands are all literals. -/
def evalLiterals? (p : Pool α) (form : Form α) : Option (Value α) :=
  if form.isPure then (form.dependencies.mapM p.literal?).bind form.eval? else none

/-- Two negations, and two inversions, cancel; one absolute value suffices. -/
def simplifyUnary (p : Pool α) (op : UnaryOp) (x : ExprId) : Simplified α :=
  match op, p.form? x with
  | .neg, some (.unary .neg y) => .existing y
  | .not, some (.unary .not y) => .existing y
  | .invert, some (.unary .invert y) => .existing y
  | .abs, some (.unary .abs _) => .existing x
  | _, _ => .keep

/-- Two literals on the right of the same operator are combined. -/
def mergeLiterals (p : Pool α) (op : BinaryOp) (x : ExprId) (c : Value α) : Simplified α :=
  match p.form? x with
  | some (.binary inner y z) =>
    if inner = op then
      match (p.literal? z).bind (op.eval? · c) with
      | some merged => .merge op y merged
      | none => .keep
    else .keep
  | _ => .keep

/-- An operator with the literal `c` on its right. -/
def simplifyRight (p : Pool α) (op : BinaryOp) (x : ExprId) (c : Value α) (kind : Kind) :
    Simplified α :=
  match op, c with
  | .and, .boolean true => .existing x
  | .and, .boolean false => .value (.boolean false)
  | .or, .boolean false => .existing x
  | .or, .boolean true => .value (.boolean true)
  | .xor, .boolean false => .existing x
  | .add, c =>
    if c.isZero then .existing x
    else if kind.isNumeric then p.mergeLiterals .add x c
    else .keep
  | .sub, c => if c.isZero then .existing x else .keep
  | .mul, c =>
    if c.isOne then .existing x
    else if c.isZero && kind.isNumeric then .value (Value.zero kind)
    else if kind.isNumeric then p.mergeLiterals .mul x c
    else .keep
  | .div, c => if c.isOne then .existing x else .keep
  | _, _ => .keep

/-- A binary operator with at most one literal operand. -/
def simplifyBinary (p : Pool α) (op : BinaryOp) (x y : ExprId) (kind : Kind) : Simplified α :=
  let operandKind := ((p.get? x).map (·.kind)).getD kind
  match p.literal? x, p.literal? y with
  | some _, none =>
    if op.isCommutative operandKind then .instead (.binary op y x) else .keep
  | _, some c => p.simplifyRight op x c kind
  | none, none => .keep

/-- What becomes of a form of the given kind. -/
def simplify (p : Pool α) (form : Form α) (kind : Kind) : Simplified α :=
  match p.evalLiterals? form with
  | some v => .value v
  | none =>
    match form with
    | .unary op x => p.simplifyUnary op x
    | .binary op x y => p.simplifyBinary op x y kind
    | .select c t f =>
      match (p.literal? c).bind Value.asBoolean? with
      | some true => .existing t
      | some false => .existing f
      | none => if t = f then .existing t else .keep
    | .smooth x _ | .rateLimit x _ => if (p.literal? x).isSome then .existing x else .keep
    | .edge x _ => if (p.literal? x).isSome then .value (.boolean false) else .keep
    | .index x position =>
      match p.form? x with
      | some (.pack parts) | some (.compose .vector parts) =>
        match parts[position]? with
        | some part => .existing part
        | none => .keep
      | _ => .keep
    | _ => .keep

end Pool

end SignalNet
