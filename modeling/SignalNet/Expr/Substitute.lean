import SignalNet.Expr.Build

/-!
# Substitution

Substitution rebuilds an expression with some expressions in it replaced by
others.  Expressions that contain none of them keep their positions; the
others are built anew, so scopes are checked and forms simplified.  What was
done once is remembered, since expressions share their operands.
-/

namespace SignalNet.Pool

variable {α : Type} [Scalar α]

/-- What substitution has already rebuilt. -/
abbrev Rebuilt := Table ExprId ExprId

/-- Substitute in a list of operands, from left to right. -/
def substituteAll (one : ExprId → Rebuilt → Building α (ExprId × Rebuilt)) :
    List ExprId → Rebuilt → Building α (List ExprId × Rebuilt)
  | [], done => return ([], done)
  | id :: rest, done => do
    let (id, done) ← one id done
    let (rest, done) ← substituteAll one rest done
    return (id :: rest, done)

/-- The form with the images of its operands in their place; the expression
itself if they are the operands it has. -/
def rebuild (id : ExprId) (form : Form α) (images : List ExprId) : Building α ExprId :=
  if images = form.dependencies then pure id
  else match form.withDependencies? images with
    | some other => build other
    | none => throw (.unsupportedSubstitution form.typeName)

/-- Substitution may go through a form unless it is a custom form that forbids
it. -/
def substitutable : Form α → Except (ExprError α) Unit
  | .custom c => if c.replaceable then .ok () else .error (.unsupportedSubstitution c.typeName)
  | _ => .ok ()

/-- Substitute in an expression, at most `fuel` operands deep. -/
def substituteWithin (map : Table ExprId ExprId) :
    (fuel : Nat) → ExprId → Rebuilt → Building α (ExprId × Rebuilt)
  | fuel, id, done =>
    match (map.get? id).or (done.get? id) with
    | some image => pure (image, done)
    | none => do
      let n ← Building.ofExcept ((← get).node id)
      if n.form.isLeaf then pure (id, done)
      else do
        Building.ofExcept (substitutable n.form)
        match fuel with
        | 0 => pure (id, done)
        | fuel + 1 =>
          let (images, done) ← substituteAll (substituteWithin map fuel) n.form.dependencies done
          let result ← rebuild id n.form images
          pure (result, done.insert id result)

/-- Rebuild `root` with every key of `map` replaced by its image.  Images are
not substituted again.  Operands stand before the nodes that use them, so no
chain of operands is longer than the position of `root`. -/
def substitute (root : ExprId) (map : Table ExprId ExprId) : Building α ExprId := do
  let (image, _) ← substituteWithin map (root + 1) root .empty
  return image

end SignalNet.Pool
