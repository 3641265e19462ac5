import SignalNet.Expr.Pool

/-!
# Persisted values

A value that a command computes can outlive the command.  `Pool.persist`
records the expression and the scope that will read the value back and hands
out a handle; `Pool.persisted` is a leaf of that scope.  Compiling binds each
handle to a slot in which the value is kept.
-/

namespace SignalNet.Pool

variable {α : Type}

/-- What a handle stands for. -/
def persistOf (p : Pool α) (handle : Nat) : Except (ExprError α) Persist :=
  match p.persists[handle]? with
  | some entry => .ok entry
  | none => .error (.unknownHandle handle)

/-- The expression whose value a handle carries. -/
def persistSource (p : Pool α) (handle : Nat) : Except (ExprError α) ExprId :=
  (p.persistOf handle).map (·.source)

/-- Carry the value of an expression over into another scope.  The expression
must be usable only where that scope is: `target` is the scope of the
expression itself, its context, or the global scope. -/
def persist (source : ExprId) (target : Scope) : Building α Nat := do
  let p ← get
  let scope ← Building.ofExcept (p.scopeOf source)
  if scope.encloses target then do
    set { p with persists := p.persists ++ [(⟨source, target⟩ : Persist)] }
    return p.persists.length
  else throw (.scopeMismatch scope target)

/-- The leaf that reads a persisted value back. -/
def persisted [Scalar α] (handle : Nat) : Building α ExprId := do
  let p ← get
  let entry ← Building.ofExcept (p.persistOf handle)
  let kind ← Building.ofExcept (p.kindOf entry.source)
  intern ⟨.persisted handle, kind, entry.target, false⟩

end SignalNet.Pool
