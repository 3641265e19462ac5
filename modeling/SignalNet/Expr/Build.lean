import SignalNet.Expr.Simplify
import SignalNet.Expr.Typing

/-!
# Building composite expressions

`Pool.build` is behind every operation on expressions: it joins the scopes of
the operands, infers the kind, simplifies the form if folding is on, and adds
the node.  A simplification may ask for another form in place of the first.
The fuel that bounds these replacements grows with the pool.
-/

namespace SignalNet.Pool

variable {α : Type} [Scalar α]

/-- A composite value never changes if its operands never do.  Delays and
edges change once, after the first cycle. -/
def staysConstant (p : Pool α) : Form α → Bool
  | .pre _ _ | .edge _ _ => false
  | form => !form.dependencies.isEmpty && form.dependencies.all p.isConstant

/-- Build a form with at most `fuel` replacements. -/
def buildWithin : (fuel : Nat) → Form α → Building α ExprId
  | fuel, form => do
    let p ← get
    let scope ← Building.ofExcept (p.joinScopes .global form.dependencies)
    let kind ← Building.ofExcept (p.infer form)
    let keep := intern ⟨form, kind, scope, p.staysConstant form⟩
    match if p.folding then p.simplify form kind else .keep with
    | .keep => keep
    | .existing id => return id
    | .value v => constant v
    | .instead other =>
      match fuel with
      | fuel + 1 => buildWithin fuel other
      | 0 => keep
    | .merge op x c =>
      match fuel with
      | fuel + 1 => do
        let c ← constant c
        buildWithin fuel (.binary op x c)
      | 0 => keep

/-- Build a composite form. -/
def build (form : Form α) : Building α ExprId := do
  buildWithin ((← get).size + 2) form

/-! ### Operators -/

def unary (op : UnaryOp) (x : ExprId) : Building α ExprId :=
  build (.unary op x)

def binary (op : BinaryOp) (x y : ExprId) : Building α ExprId :=
  build (.binary op x y)

def compare (op : CompareOp) (x y : ExprId) : Building α ExprId :=
  build (.compare op x y)

/-- `ifTrue` while `condition` holds, `ifFalse` otherwise. -/
def select (condition ifTrue ifFalse : ExprId) : Building α ExprId :=
  build (.select condition ifTrue ifFalse)

/-- A number kept within bounds. -/
def limit (value lower upper : ExprId) : Building α ExprId :=
  build (.limit value lower upper)

/-- The conjunction of all terms, `true` for none. -/
def all (terms : List ExprId) : Building α ExprId := do
  terms.foldlM (binary .and) (← constant (.boolean true))

/-- The disjunction of all terms, `false` for none. -/
def any (terms : List ExprId) : Building α ExprId := do
  terms.foldlM (binary .or) (← constant (.boolean false))

/-! ### Composed values -/

/-- An array of doubles. -/
def pack (parts : List ExprId) : Building α ExprId :=
  build (.pack parts)

/-- An element of an array or a vector, or a part of a transform. -/
def index (x : ExprId) (position : Nat) : Building α ExprId :=
  build (.index x position)

def vector (x y z : ExprId) : Building α ExprId :=
  build (.compose .vector [x, y, z])

/-- A transform from a position and from roll, pitch and yaw. -/
def transform (position angles : ExprId) : Building α ExprId :=
  build (.compose .transform [position, angles])

/-! ### Memory -/

/-- A low pass of first order with a time constant in seconds. -/
def smooth (x : ExprId) (timeConstant : α) : Building α ExprId :=
  build (.smooth x (Scalar.canonical timeConstant))

/-- Follow `x` with a change of at most `maxRate` a second. -/
def rateLimit (x : ExprId) (maxRate : α) : Building α ExprId :=
  build (.rateLimit x (Scalar.canonical maxRate))

/-- The value of the previous cycle, `initial` in the first.  Only here may a
loop of the network close. -/
def pre (x : ExprId) (initial : Value α) : Building α ExprId :=
  build (.pre x initial)

/-- True in the cycle in which a boolean changes. -/
def edge (x : ExprId) (rising : Bool) : Building α ExprId :=
  build (.edge x rising)

/-! ### Forms of the user -/

/-- A node of a custom form.  Its parameters must be finite, and without
operands it is global. -/
def custom (form : CustomForm α) : Building α ExprId :=
  let form := { form with parameters := form.parameters.map Scalar.canonical }
  match form.parameters.find? fun x => !Scalar.isFinite x with
  | some x => throw (.nonFinite ⟨"custom node parameter", x⟩)
  | none =>
    if form.operands.isEmpty then intern ⟨.custom form, form.kind, .global, false⟩
    else build (.custom form)

end SignalNet.Pool
