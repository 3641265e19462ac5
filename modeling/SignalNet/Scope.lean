/-!
# Scopes

Every expression is global, or belongs to a context (a runtime that owns
devices), or belongs to one command running inside a context.  Expressions
from scopes that exclude each other are never combined.
-/

namespace SignalNet

/-- Where an expression may be used. -/
inductive Scope
  | global
  | context (context : Nat)
  | command (context command : Nat)
  deriving DecidableEq, Repr

namespace Scope

/-- The context a scope lies in. -/
def context? : Scope → Option Nat
  | global => none
  | context c => some c
  | command c _ => some c

/-- The most specific of two scopes, if one lies within the other. -/
def join? : Scope → Scope → Option Scope
  | global, s => some s
  | s, global => some s
  | context a, context b => if a = b then some (context a) else none
  | context a, command c k => if a = c then some (command c k) else none
  | command c k, context a => if a = c then some (command c k) else none
  | command c k, command c' k' =>
    if command c k = command c' k' then some (command c k) else none

/-- An expression of scope `inner` can be used in `s` without narrowing it. -/
def encloses (s inner : Scope) : Bool :=
  decide (s.join? inner = some s)

/-- Join a list of scopes onto `s`, from left to right. -/
def joinAll? (s : Scope) (scopes : List Scope) : Option Scope :=
  scopes.foldlM join? s

def text : Scope → String
  | global => "global scope"
  | context c => "context " ++ toString c
  | command c k => "command " ++ toString k ++ " in context " ++ toString c

end Scope

end SignalNet
