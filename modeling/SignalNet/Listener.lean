import SignalNet.Compile.Compiler
import SignalNet.Text.Quoted

/-!
# Listeners

A running network reports new values of its observed channels.  A hub passes
each report on to the listeners of its channel, in the order in which they
subscribed.  A listener that fails stops no other: its failure is handed to the
hub's handler, and the next one is called.

Listeners and the handler may keep states of their own.  All of these together
are the type `σ`.
-/

namespace SignalNet

/-- How a call of a listener ends. -/
inductive Outcome
  | handled
  /-- The listener reports an error. -/
  | failed (message : String)
  /-- The listener breaks off, perhaps with a text. -/
  | aborted (text : Option String)
  deriving DecidableEq, Repr

/-- What is reported about a call, unless the listener handled the value. -/
def Outcome.complaint? : Outcome → Option String
  | handled => none
  | failed message => some message
  | aborted (some text) => some ("panicked: " ++ text)
  | aborted none => some "panicked"

/-- A new value of a channel. -/
structure Update (α : Type) where
  channel : String
  value : Value α

/-- A listener failed. -/
structure ListenerFailure where
  handle : Nat
  channel : String
  message : String
  deriving DecidableEq, Repr

/-- The text of a subscription. -/
def subscriptionText (handle : Nat) : String :=
  "SubscriptionHandle(" ++ toString handle ++ ")"

def ListenerFailure.text (e : ListenerFailure) : String :=
  "Listener " ++ subscriptionText e.handle ++ " on '" ++ e.channel ++ "' failed: " ++ e.message

/-- A subscription to a channel. -/
structure Listener (α σ : Type) where
  handle : Nat
  channel : String
  callback : Value α → StateM σ Outcome

/-- The listeners of a compiled network. -/
structure Hub (α σ : Type) where
  channels : Table ExprId String
  /-- Learns of each failure right after the call that failed. -/
  onFailure : ListenerFailure → StateM σ Unit := fun _ => pure ()
  /-- In the order of subscription. -/
  listeners : List (Listener α σ) := []
  /-- The next handle. -/
  next : Nat := 0

namespace Hub

variable {α σ : Type}

/-- A hub for the observed expressions of a network. -/
def ofNet (net : CompiledNet α) : Hub α σ :=
  { channels := net.observed }

/-- Subscribe to an observed expression.  Handles are never used again. -/
def observe (hub : Hub α σ) (id : ExprId) (callback : Value α → StateM σ Outcome) :
    Except Constraint (Nat × Hub α σ) :=
  match hub.channels.get? id with
  | none => .error (.notObserved id)
  | some channel =>
    .ok (hub.next, { hub with
      listeners := hub.listeners ++ [⟨hub.next, channel, callback⟩]
      next := hub.next + 1 })

/-- End a subscription; `false` if it has ended before. -/
def unobserve (hub : Hub α σ) (handle : Nat) : Bool × Hub α σ :=
  (hub.listeners.any (·.handle == handle),
   { hub with listeners := hub.listeners.filter (·.handle != handle) })

/-- The hub on one line: its channels and the number of its listeners. -/
def summary (hub : Hub α σ) : String :=
  let channels := (hub.channels.sorted fun a b => decide (a ≤ b)).map fun (id, channel) =>
    Ident.tagged id ++ ": " ++ Text.quoted channel
  "ListenerHub \x7b channels: \x7b" ++ ", ".intercalate channels ++ "\x7d, listeners: " ++
    toString hub.listeners.length ++ ", .. \x7d"

/-- What an update leads to. -/
structure Delivery where
  /-- The number of listeners that were called. -/
  invoked : Nat := 0
  /-- Failures in the order of the calls. -/
  failures : List ListenerFailure := []
  deriving DecidableEq, Repr

/-- Call listeners in turn. -/
def call (hub : Hub α σ) (update : Update α) : List (Listener α σ) → StateM σ Delivery
  | [] => pure {}
  | listener :: rest => do
    let outcome ← listener.callback update.value
    let failure := outcome.complaint?.map fun message =>
      (⟨listener.handle, update.channel, message⟩ : ListenerFailure)
    failure.forM hub.onFailure
    let others ← hub.call update rest
    return ⟨others.invoked + 1, failure.toList ++ others.failures⟩

/-- Pass an update on to the listeners of its channel. -/
def deliver (hub : Hub α σ) (update : Update α) : StateM σ Delivery :=
  hub.call update (hub.listeners.filter (·.channel == update.channel))

/-- Pass updates on in the order of their arrival.  Returns the number of
updates and all failures. -/
def pump (hub : Hub α σ) : List (Update α) → StateM σ (Nat × List ListenerFailure)
  | [] => pure (0, [])
  | update :: rest => do
    let delivery ← hub.deliver update
    let (count, failures) ← hub.pump rest
    return (count + 1, delivery.failures ++ failures)

end Hub

end SignalNet
