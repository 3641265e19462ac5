import SignalNet.Ident
import SignalNet.Net.Primitive
import SignalNet.Table
import SignalNet.Text.Quoted

/-!
# Rules of lowering

A rule says how a node of an expression becomes blocks of a network.  Rules
are found by the keys of a node, most specific first, so a rule for
`binary.add` takes precedence over the one for `binary` in additions only.

A rule has one of eight shapes.  One is the library's own way, and the others
are the mappers that take the node and the ports of its operands and do nothing
to the session but lower another expression, add one block, share a constant or
open the placeholder that the node itself is.  Mappers may be arbitrary
functions with access to the session; those that go beyond the shapes are left
out here: mappers that add several blocks, compute on the node, open the
placeholder of another node, add resolvers, connect ports, name outputs or
register signals.  Where a theorem speaks of any rules, it speaks of rules of
these shapes, under any keys and in any combination.
-/

namespace SignalNet

/-- How a node is lowered: the shapes of mappers. -/
inductive Rule (α : Type)
  /-- The way the library lowers a node of this form. -/
  | standard
  /-- One block on the operands, of the given kind or of the node's own. -/
  | block (primitive : Primitive α) (kind : Option Kind)
  /-- A constant. -/
  | constant (value : Value α)
  /-- The operand at a position. -/
  | operand (position : Nat)
  /-- Whatever another expression is lowered to. -/
  | expression (id : ExprId)
  /-- A block that waits for a placeholder to be resolved. -/
  | placeholder
  /-- A custom block with the type and the parameters of the node. -/
  | custom
  /-- No node of this key can be lowered. -/
  | refuse (reason : String)
  deriving DecidableEq, Repr

/-- The rules by key, at most one for each. -/
abbrev Rules (α : Type) := Table String (Rule α)

namespace Rules

variable {α : Type}

/-- The keys that cover every form but the custom ones. -/
def standardKeys : List String :=
  ["constant", "sensor", "input", "parameter", "clock", "relation", "placeholder", "persisted",
   "unary", "binary", "compare", "select", "limit", "filter", "delay", "edge", "pack", "index",
   "compose"]

/-- The rules of the library. -/
def standard : Rules α :=
  standardKeys.foldl (fun rules key => rules.insert key .standard) .empty

/-- The first key with a rule, and the rule. -/
def lookup? (rules : Rules α) (keys : List String) : Option (String × Rule α) :=
  keys.findSome? fun key => (Table.get? rules key).map (key, ·)

/-- All keys with a rule, sorted. -/
def keys (rules : Rules α) : List String :=
  (Table.sorted rules textLe).map (·.1)

/-- The rules on one line: their keys. -/
def summary (rules : Rules α) : String :=
  "MapperRegistry \x7b keys: [" ++ ", ".intercalate (rules.keys.map Text.quoted) ++ "] \x7d"

end Rules

end SignalNet
