import SignalNet.Ident
import SignalNet.Kind

/-!
# Errors of networks

Why a network cannot be built or is not complete.
-/

namespace SignalNet

/-- Why a call on a network fails. -/
inductive NetError
  /-- Sinks have no output, all other primitives have one. -/
  | sinkOutput
  | arity (primitive : String) (expected given : Nat)
  /-- A connection does not run from an output to an input. -/
  | direction (source target : PortId)
  /-- A connection between ports of different kinds. -/
  | kinds (source : PortId) (carried : Kind) (target : PortId) (expected : Kind)
  /-- An input has a producer already. -/
  | driven (input existing : PortId)
  /-- A name stands for another port already. -/
  | outputBound (name : String) (existing : PortId)
  | unknownBlock (id : BlockId)
  | unknownPort (id : PortId)
  | noOutput (block : BlockId)
  /-- A name can only be given to an output. -/
  | notOutput (name : String)
  /-- A loop that no delay breaks. -/
  | cycle
  /-- An input without a producer. -/
  | openInput (slot : Nat) (primitive : String) (block : BlockId)
  deriving DecidableEq, Repr

/-- What an error of a network is about. -/
inductive NetError.Topic
  | argument
  | connection
  | reference
  | topology
  deriving DecidableEq, Repr

namespace NetError

def topic : NetError → Topic
  | sinkOutput => .argument
  | arity _ _ _ | direction _ _ | kinds _ _ _ _ | driven _ _ | outputBound _ _ => .connection
  | unknownBlock _ | unknownPort _ | noOutput _ | notOutput _ => .reference
  | cycle | openInput _ _ _ => .topology

def Topic.text : Topic → String
  | argument => "Invalid argument"
  | connection => "Invalid connection"
  | reference => "Invalid reference"
  | topology => "Topology error"

/-- What is wrong, without the topic. -/
def detail : NetError → String
  | sinkOutput => "only sinks have no output port"
  | arity primitive expected given =>
    "'" ++ primitive ++ "' takes " ++ toString expected ++ " inputs, " ++ toString given ++ " given"
  | direction source target =>
    Ident.text source ++ " -> " ++ Ident.text target ++ " must run from an output to an input"
  | kinds source carried target expected =>
    "incompatible port kinds: " ++ Ident.text source ++ " carries " ++ carried.text ++ " but " ++
      Ident.text target ++ " expects " ++ expected.text
  | driven input existing =>
    "input " ++ Ident.text input ++ " is already driven by " ++ Ident.text existing
  | outputBound name existing =>
    "output '" ++ name ++ "' is already bound to " ++ Ident.text existing
  | unknownBlock id => "block " ++ Ident.text id
  | unknownPort id => "port " ++ Ident.text id
  | noOutput block => "block " ++ Ident.text block ++ " has no output"
  | notOutput name => "'" ++ name ++ "' must name an output port"
  | cycle => "fragment contains a cycle without a delay"
  | openInput slot primitive block =>
    "input " ++ toString slot ++ " of '" ++ primitive ++ "' block " ++ Ident.text block ++
      " is not connected"

def message (e : NetError) : String :=
  e.topic.text ++ ": " ++ e.detail

end NetError

end SignalNet
