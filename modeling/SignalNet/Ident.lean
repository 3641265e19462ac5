/-!
# Identifiers

Expressions, blocks and ports are identified by their position in the table
that holds them.

Identifiers have 32 bits, so a table has one for at most `Ident.capacity`
entries; `Ident.next` is the check, and its error.  Pools and fragments leave
this check out: they grow without a bound, and no construction fails because
identifiers have run out.  What is proved of them is about tables that stay
within the capacity.
-/

namespace SignalNet

/-- Position of a node in its pool of expressions. -/
abbrev ExprId := Nat

/-- Position of a block in its network. -/
abbrev BlockId := Nat

/-- Position of a port in its network. -/
abbrev PortId := Nat

namespace Ident

/-- How many entries a table can identify: one less than `2 ^ 32`. -/
def capacity : Nat := 0xffffffff

/-- A table has no identifier left. -/
structure Exhausted where
  table : String
  size : Nat
  deriving DecidableEq, Repr

def Exhausted.message (e : Exhausted) : String :=
  "Id space exhausted: " ++ e.table ++ " table already holds " ++ toString e.size ++ " entries"

/-- The identifier of the next entry of a table with `size` entries. -/
def next (table : String) (size : Nat) : Except Exhausted Nat :=
  if size < capacity then .ok size else .error ⟨table, size⟩

/-- The identifier at a position, `none` beyond the capacity. -/
def ofIndex? (index : Nat) : Option Nat :=
  if index < capacity then some index else none

/-- An identifier inside a sentence. -/
def text (id : Nat) : String :=
  toString id

/-- An identifier that is told from a plain number. -/
def tagged (id : Nat) : String :=
  "Id(" ++ toString id ++ ")"

end Ident

end SignalNet
