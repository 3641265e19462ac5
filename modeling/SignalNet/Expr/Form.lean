import SignalNet.Ident
import SignalNet.Operator
import SignalNet.Value

/-!
# Forms of expressions

An expression is a node in a pool, and refers to its operands by their
positions.  The form of a node says what it computes from them.

`Form.dependencies` and `Form.withDependencies?` read and replace the operands
in order.  `Form.canonical` is the form up to the values that structural
sharing identifies.
-/

namespace SignalNet

/-- A form contributed by the user and lowered by a rule of the user. -/
structure CustomForm (α : Type) where
  typeName : String
  /-- Keys of rules to fall back on, most specific first. -/
  capabilities : List String := []
  parameters : List α := []
  operands : List ExprId := []
  kind : Kind
  /-- Substitution may replace the operands; otherwise it is an error. -/
  replaceable : Bool := true
  deriving DecidableEq, Repr

/-- What a node computes. -/
inductive Form (α : Type)
  | constant (value : Value α)
  /-- A reading provided by a driver. -/
  | sensor (name : String) (device : Option String)
  /-- A value set from outside while the network runs. -/
  | input (name : String)
  /-- A value supplied with the request to compile. -/
  | parameter (name : String)
  | clock (signal : ClockSignal)
  /-- The motion from one frame to another. -/
  | relation (source target : String)
  /-- A reference to an expression that is built later. -/
  | placeholder (number : Nat) (label : String)
  /-- A value that outlives the command that computes it. -/
  | persisted (handle : Nat)
  | unary (op : UnaryOp) (operand : ExprId)
  | binary (op : BinaryOp) (lhs rhs : ExprId)
  | compare (op : CompareOp) (lhs rhs : ExprId)
  | select (condition ifTrue ifFalse : ExprId)
  | limit (value lower upper : ExprId)
  /-- A low pass of first order. -/
  | smooth (input : ExprId) (timeConstant : α)
  | rateLimit (input : ExprId) (maxRate : α)
  /-- The value of the previous cycle. -/
  | pre (input : ExprId) (initial : Value α)
  | edge (input : ExprId) (rising : Bool)
  | pack (parts : List ExprId)
  | index (input : ExprId) (position : Nat)
  | compose (composite : Composite) (parts : List ExprId)
  | custom (form : CustomForm α)
  deriving DecidableEq, Repr

namespace Form

variable {α : Type}

/-- The name of a form in messages. -/
def typeName : Form α → String
  | constant _ => "constant"
  | sensor _ _ => "sensor"
  | input _ => "input"
  | parameter _ => "parameter"
  | clock _ => "clock"
  | relation _ _ => "relation"
  | placeholder _ _ => "placeholder"
  | persisted _ => "persisted"
  | unary _ _ => "unary"
  | binary _ _ _ => "binary"
  | compare _ _ _ => "compare"
  | select _ _ _ => "select"
  | limit _ _ _ => "limit"
  | smooth _ _ => "smooth"
  | rateLimit _ _ => "rate_limit"
  | pre _ _ => "pre"
  | edge _ _ => "edge"
  | pack _ => "pack"
  | index _ _ => "index"
  | compose _ _ => "compose"
  | custom c => c.typeName

/-- The keys under which lowering looks for a rule, most specific first. -/
def keys : Form α → List String
  | unary op _ => ["unary." ++ op.name, "unary"]
  | binary op _ _ => ["binary." ++ op.name, "binary"]
  | compare op _ _ => ["compare." ++ op.name, "compare"]
  | smooth _ _ => ["smooth", "filter"]
  | rateLimit _ _ => ["rate_limit", "filter"]
  | pre _ _ => ["pre", "delay"]
  | compose c _ => ["compose." ++ c.text, "compose"]
  | custom c => c.typeName :: c.capabilities ++ ["custom"]
  | form => [form.typeName]

/-- The operands in order. -/
def dependencies : Form α → List ExprId
  | constant _ | sensor _ _ | input _ | parameter _ | clock _ | relation _ _
  | placeholder _ _ | persisted _ => []
  | unary _ x => [x]
  | binary _ x y => [x, y]
  | compare _ x y => [x, y]
  | select c t f => [c, t, f]
  | limit x lo hi => [x, lo, hi]
  | smooth x _ => [x]
  | rateLimit x _ => [x]
  | pre x _ => [x]
  | edge x _ => [x]
  | pack parts => parts
  | index x _ => [x]
  | compose _ parts => parts
  | custom c => c.operands

/-- A form without operands. -/
def isLeaf (form : Form α) : Bool :=
  form.dependencies.isEmpty

/-- A form whose value depends on earlier cycles. -/
def isStateful : Form α → Bool
  | smooth _ _ | rateLimit _ _ | pre _ _ | edge _ _ => true
  | _ => false

/-- The same form with other operands, `none` if their number is wrong or the
form does not permit it. -/
def withDependencies? : Form α → List ExprId → Option (Form α)
  | unary op _, [x] => some (unary op x)
  | binary op _ _, [x, y] => some (binary op x y)
  | compare op _ _, [x, y] => some (compare op x y)
  | select _ _ _, [c, t, f] => some (select c t f)
  | limit _ _ _, [x, lo, hi] => some (limit x lo hi)
  | smooth _ tau, [x] => some (smooth x tau)
  | rateLimit _ rate, [x] => some (rateLimit x rate)
  | pre _ initial, [x] => some (pre x initial)
  | edge _ rising, [x] => some (edge x rising)
  | index _ position, [x] => some (index x position)
  | pack parts, deps => if parts.length = deps.length then some (pack deps) else none
  | compose c parts, deps => if parts.length = deps.length then some (compose c deps) else none
  | custom c, deps =>
    if c.replaceable ∧ c.operands.length = deps.length then
      some (custom { c with operands := deps })
    else if c.operands = [] ∧ deps = [] then some (custom c)
    else none
  | form, [] => if form.isLeaf then some form else none
  | _, _ => none

/-- The value of a literal. -/
def literal? : Form α → Option (Value α)
  | constant v => some v
  | _ => none

/-- The representative of the forms that structural sharing identifies.  The
scalars of filters and of custom forms are canonical from the start. -/
def canonical [Scalar α] : Form α → Form α
  | constant v => constant v.canonical
  | pre x initial => pre x initial.canonical
  | form => form

end Form

end SignalNet
