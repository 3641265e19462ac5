import SignalNet.Expr.Pool
import SignalNet.Net.Error
import SignalNet.Settings

/-!
# Errors of compilation

Why a request cannot be compiled.  An error ends the whole compilation.
-/

namespace SignalNet

/-- What a network cannot carry. -/
inductive Constraint
  /-- A rule gave a port of the wrong kind. -/
  | producedKind (key : String) (produced : Kind) (id : ExprId) (expected : Kind)
  /-- A parameter has a value of the wrong kind. -/
  | parameterKind (name : String) (found expected : Kind)
  | notBoolean (what : String) (found : Kind)
  | notPlaceholder (id : ExprId) (typeName : String)
  /-- A placeholder that no block stands for. -/
  | notLowered (number : Nat)
  | notObserved (id : ExprId)
  /-- A rule refers to an operand that is not there. -/
  | noOperand (position : Nat)
  /-- A rule of the user refuses a node. -/
  | refused (reason : String)
  deriving DecidableEq, Repr

/-- Why a request cannot be compiled. -/
inductive CompileError (α : Type)
  | missingParameter (name : String)
  /-- No rule for any of the keys. -/
  | unmappable (typeName : String) (keys : List String)
  | deviceUnavailable (device : String)
  /-- Two frames are not connected. -/
  | noRelation (source target : String)
  /-- A persisted value without a slot. -/
  | unboundPersisted (handle : Nat)
  | unresolvedPlaceholder (label : String)
  | resolvedTwice (label : String)
  /-- A state expression looks into an action that is not there. -/
  | unknownAction (name : String)
  /-- A rule leads back to the expression that it lowers. -/
  | circular (id : ExprId)
  | constraint (cause : Constraint)
  | settings (cause : SettingsError α)
  | expr (cause : ExprError α)
  | net (cause : NetError)
  deriving DecidableEq, Repr

def Constraint.message : Constraint → String
  | producedKind key produced id expected =>
    "mapper '" ++ key ++ "' produced " ++ produced.text ++ " for " ++ Ident.text id ++
      ", expected " ++ expected.text
  | parameterKind name found expected =>
    "parameter '" ++ name ++ "' is " ++ found.text ++ ", expected " ++ expected.text
  | notBoolean what found => what ++ " must be boolean, found " ++ found.text
  | notPlaceholder id name => Ident.text id ++ " is a " ++ name ++ " node, not a placeholder"
  | notLowered number => "placeholder " ++ toString number ++ " was not lowered"
  | notObserved id => "expression " ++ Ident.text id ++ " is not observed by this network"
  | noOperand position => "no input " ++ toString position
  | refused reason => reason

/-- The sentence of a compile error; unreadable settings have none. -/
def CompileError.message? : CompileError Float → Option String
  | missingParameter name => some ("Missing parameter '" ++ name ++ "'")
  | unmappable name keys =>
    some ("No mapper for node kind '" ++ name ++ "' (tried " ++ commaSeparated keys ++ ")")
  | deviceUnavailable device => some ("Device '" ++ device ++ "' is not available")
  | noRelation source target =>
    some ("No relation from '" ++ source ++ "' to '" ++ target ++ "'")
  | unboundPersisted handle =>
    some ("Persisted value " ++ Persist.handleText handle ++ " is not bound to a slot")
  | unresolvedPlaceholder label => some ("Placeholder '" ++ label ++ "' was never resolved")
  | resolvedTwice label => some ("Placeholder '" ++ label ++ "' was resolved twice")
  | unknownAction name => some ("Unknown action '" ++ name ++ "'")
  | circular id => some ("Expression " ++ Ident.text id ++ " is lowered to itself")
  | constraint cause => some ("Constraint violated: " ++ cause.message)
  | settings cause => cause.message?.map ("Configuration error: " ++ ·)
  | expr cause => some cause.message
  | net cause => some cause.message

end SignalNet
