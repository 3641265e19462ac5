import SignalNet.Ident

/-!
# States and exceptions

Actions and commands raise nothing on the host.  They have boolean ports that
are true while a state holds or in a cycle in which an exception is raised.
A registry records which port stands for which of them.
-/

namespace SignalNet

/-- A state of an action or a command. -/
inductive State
  | active
  | completed
  | cancelled
  /-- An intermediate state with a name of the user's choice. -/
  | milestone (name : String)
  deriving DecidableEq, Repr

namespace State

def text : State → String
  | active => "active"
  | completed => "completed"
  | cancelled => "cancelled"
  | milestone name => "milestone '" ++ name ++ "'"

/-- Position of a state among the three that have no name, which come first. -/
def rank : State → Nat
  | active => 0
  | completed => 1
  | cancelled => 2
  | milestone _ => 3

/-- The three states without a name, then the milestones by name. -/
def le : State → State → Bool
  | milestone a, milestone b => decide (a ≤ b)
  | s, t => decide (s.rank ≤ t.rank)

end State

/-- A class of exceptions with its chain of ancestors, nearest first. -/
structure ExceptionClass where
  name : String
  ancestors : List String := []
  deriving DecidableEq, Repr

namespace ExceptionClass

/-- A class without a parent. -/
def root (name : String) : ExceptionClass := ⟨name, []⟩

/-- A subclass. -/
def child (c : ExceptionClass) (name : String) : ExceptionClass := ⟨name, c.name :: c.ancestors⟩

def parent? : ExceptionClass → Option ExceptionClass
  | ⟨_, []⟩ => none
  | ⟨_, first :: rest⟩ => some ⟨first, rest⟩

/-- A handler for `other` handles an exception of class `c`.  Classes are
matched by name. -/
def isA (c other : ExceptionClass) : Bool :=
  c.name == other.name || c.ancestors.any (· == other.name)

/-- The class and its ancestors, nearest first. -/
def chain (c : ExceptionClass) : List ExceptionClass :=
  c :: go c.ancestors
where
  /-- The classes of a chain of ancestors. -/
  go : List String → List ExceptionClass
    | [] => []
    | first :: rest => ⟨first, rest⟩ :: go rest

/-- By name, then by the names of the ancestors. -/
def le (a b : ExceptionClass) : Bool :=
  decide (a.name < b.name) ||
    (a.name == b.name && !b.ancestors.lex a.ancestors fun x y => decide (x < y))

end ExceptionClass

/-- What a boolean port can stand for. -/
inductive Signal
  | state (s : State)
  | exception (c : ExceptionClass)
  deriving DecidableEq, Repr

/-- The ports of signals, in the order of registration. -/
structure Registry where
  entries : List (Signal × PortId) := []
  deriving DecidableEq, Repr

namespace Registry

/-- Record that a port stands for a signal.  A pair is recorded once. -/
def register (r : Registry) (signal : Signal) (port : PortId) : Registry :=
  if (signal, port) ∈ r.entries then r else ⟨r.entries ++ [(signal, port)]⟩

/-- The ports of exactly this state. -/
def statePorts (r : Registry) (s : State) : List PortId :=
  r.entries.filterMap fun
    | (.state t, p) => if t = s then some p else none
    | (.exception _, _) => none

/-- The ports of a class and of its subclasses. -/
def exceptionPorts (r : Registry) (c : ExceptionClass) : List PortId :=
  r.entries.filterMap fun
    | (.exception e, p) => if e.isA c then some p else none
    | (.state _, _) => none

/-- The ports of a signal. -/
def ports (r : Registry) : Signal → List PortId
  | .state s => r.statePorts s
  | .exception c => r.exceptionPorts c

/-- The states that have a port, once each. -/
def states (r : Registry) : List State :=
  r.entries.foldl (fun found e => match e.1 with
    | .state s => if s ∈ found then found else found ++ [s]
    | .exception _ => found) []

/-- The classes that have a port of their own, once each. -/
def exceptionClasses (r : Registry) : List ExceptionClass :=
  r.entries.foldl (fun found e => match e.1 with
    | .exception c => if c ∈ found then found else found ++ [c]
    | .state _ => found) []

end Registry

end SignalNet
