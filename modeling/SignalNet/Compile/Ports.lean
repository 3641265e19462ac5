import SignalNet.Ident
import SignalNet.Signal
import SignalNet.Table

/-!
# Ports of actions

What a lowered action or command offers: ports for its channels, for its
states and exceptions, and the ports of the actions inside it.
-/

namespace SignalNet

/-- The ports of a lowered action. -/
inductive ActionPorts
  | mk (name : String) (outputs : Table String PortId) (signals : Registry)
      (inner : List ActionPorts)

namespace ActionPorts

def name : ActionPorts → String
  | mk name _ _ _ => name

/-- The ports of the channels. -/
def outputs : ActionPorts → Table String PortId
  | mk _ outputs _ _ => outputs

/-- The ports of states and exceptions. -/
def signals : ActionPorts → Registry
  | mk _ _ signals _ => signals

/-- The ports of the actions inside. -/
def inner : ActionPorts → List ActionPorts
  | mk _ _ _ inner => inner

mutual

/-- The action of a name: the action itself, or the first one inside it, going
down before going on. -/
def find? (name : String) : ActionPorts → Option ActionPorts
  | mk own outputs signals inner =>
    if own = name then some (mk own outputs signals inner) else findAmong? name inner

/-- The first action of a name in a list of actions. -/
def findAmong? (name : String) : List ActionPorts → Option ActionPorts
  | [] => none
  | ports :: rest =>
    match ports.find? name with
    | some found => some found
    | none => findAmong? name rest

end

end ActionPorts

end SignalNet
