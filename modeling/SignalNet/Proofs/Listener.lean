import SignalNet.Listener
import SignalNet.Proofs.Computation

/-!
# Who is called, and when

A client subscribes to observed expressions, ends subscriptions, and passes
updates on, in any order.  Callbacks and the handler of failures do what they
like with their own state `σ`; what is recorded is that they were called
(`Hub.noted`, `Hub.noting`), and a `Hub.history` holds the record operation by
operation.

One operation is described by `Hub.Faithful`: it refers to the subscriptions
that the operations before it have left (`Hub.subscribers`).  An invariant of
the hub (`Hub.Describes`) makes every operation faithful, and
`Hub.subscription_calls` adds up what this means for a single subscription.
`Hub.history_exactly_once` is the result.

Handles are natural numbers, where a counter of 64 bits begins again after
`2 ^ 64` subscriptions.
-/

namespace SignalNet.Hub

open Computing

variable {α σ : Type}

/-! ### Operations and what is seen of them -/

/-- What a client does with a hub. -/
inductive Op (α σ : Type)
  | observe (id : ExprId) (callback : Value α → StateM σ Outcome)
  | unobserve (handle : Nat)
  | deliver (update : Update α)
  | pump (updates : List (Update α))

/-- The updates that an operation passes on, in order. -/
def Op.updates : Op α σ → List (Update α)
  | deliver update => [update]
  | pump updates => updates
  | _ => []

/-- What the client is told. -/
inductive Answer
  | subscribed (handle : Nat)
  | refused (cause : Constraint)
  | ended (found : Bool)
  | delivered (delivery : Delivery)
  | pumped (count : Nat) (failures : List ListenerFailure)
  deriving DecidableEq

/-- A callback is called. -/
structure Call (α : Type) where
  handle : Nat
  update : Update α
  outcome : Outcome

/-- What the handler learns about a call. -/
def Call.report? (c : Call α) : Option ListenerFailure :=
  c.outcome.complaint?.map fun message => ⟨c.handle, c.update.channel, message⟩

/-- A call of a callback or of the handler. -/
inductive Event (α : Type)
  | called (call : Call α)
  | reported (failure : ListenerFailure)

def Event.call? : Event α → Option (Call α)
  | called c => some c
  | reported _ => none

/-- A call and, right after it, the report of its failure. -/
def Call.events (c : Call α) : List (Event α) :=
  .called c :: c.report?.toList.map .reported

/-- A callback that leaves a record of its calls. -/
def noted (handle : Nat) (channel : String) (callback : Value α → StateM σ Outcome) :
    Value α → StateM (σ × List (Event α)) Outcome := fun value (s, events) =>
  let (outcome, s') := callback value s
  (outcome, s', events ++ [.called ⟨handle, ⟨channel, value⟩, outcome⟩])

/-- A handler that leaves a record of what it is given. -/
def noting (handler : ListenerFailure → StateM σ Unit) :
    ListenerFailure → StateM (σ × List (Event α)) Unit := fun failure (s, events) =>
  ((), (handler failure s).2, events ++ [.reported failure])

/-- The hub of a network whose calls are recorded. -/
def watch (net : CompiledNet α) (handler : ListenerFailure → StateM σ Unit) :
    Hub α (σ × List (Event α)) :=
  { ofNet net with onFailure := noting handler }

/-- An operation, its answer, and the calls it led to. -/
structure Step (α σ : Type) where
  op : Op α σ
  answer : Answer
  events : List (Event α)

/-- The calls of callbacks. -/
def Step.calls (step : Step α σ) : List (Call α) :=
  step.events.filterMap Event.call?

/-- Carry an operation out.  The record of a callback names the handle that its
subscription is about to get. -/
def perform (op : Op α σ) (hub : Hub α (σ × List (Event α))) (s : σ) :
    Step α σ × Hub α (σ × List (Event α)) × σ :=
  match op with
  | .observe id callback =>
    match hub.observe id (noted hub.next ((hub.channels.get? id).getD "") callback) with
    | .ok (handle, hub') => (⟨op, .subscribed handle, []⟩, hub', s)
    | .error cause => (⟨op, .refused cause, []⟩, hub, s)
  | .unobserve handle =>
    let (found, hub') := hub.unobserve handle
    (⟨op, .ended found, []⟩, hub', s)
  | .deliver update =>
    let (delivery, s', events) := hub.deliver update (s, [])
    (⟨op, .delivered delivery, events⟩, hub, s')
  | .pump updates =>
    let ((count, failures), s', events) := hub.pump updates (s, [])
    (⟨op, .pumped count failures, events⟩, hub, s')

/-- Operations one after another. -/
def history : List (Op α σ) → Hub α (σ × List (Event α)) → σ → List (Step α σ)
  | [], _, _ => []
  | op :: rest, hub, s =>
    let (step, hub', s') := perform op hub s
    step :: history rest hub' s'

/-! ### Subscriptions -/

/-- A subscription, without its callback. -/
structure Subscription where
  handle : Nat
  channel : String
  deriving DecidableEq

/-- The subscription that an operation has brought about. -/
def Step.subscription? (net : CompiledNet α) (step : Step α σ) : Option Subscription :=
  match step.op, step.answer with
  | .observe id _, .subscribed handle => (net.observed.get? id).map (⟨handle, ·⟩)
  | _, _ => none

/-- The operation ends the subscription with a handle. -/
def Step.ends (step : Step α σ) (handle : Nat) : Bool :=
  match step.op with
  | .unobserve h => handle == h
  | _ => false

/-- What ends a subscription passes nothing on. -/
theorem Step.updates_of_ends {step : Step α σ} {handle : Nat} (h : step.ends handle = true) :
    step.op.updates = [] := by
  unfold Step.ends at h
  split at h
  · next hop => rw [hop]; rfl
  · cases h

/-- What subscribes passes nothing on. -/
theorem Step.updates_of_subscription {net : CompiledNet α} {step : Step α σ} {sub : Subscription}
    (h : step.subscription? net = some sub) : step.op.updates = [] := by
  unfold Step.subscription? at h
  split at h
  · next hop _ => rw [hop]; rfl
  · cases h

/-- The subscriptions that nothing has ended since, in the order in which they
were made. -/
def subscribers (net : CompiledNet α) : List (Step α σ) → List Subscription
  | [] => []
  | step :: later =>
    (step.subscription? net).toList.filter (fun sub => !later.any (·.ends sub.handle)) ++
      subscribers net later

/-- The answer to an operation that finds some subscriptions active and leads to
some calls. -/
def Op.Answered (net : CompiledNet α) (active : List Subscription) (calls : List (Call α))
    (answer : Answer) : Op α σ → Prop
  | observe id _ =>
    match net.observed.get? id with
    | some _ => ∃ handle, answer = .subscribed handle
    | none => answer = .refused (.notObserved id)
  | unobserve handle => answer = .ended (active.any (·.handle == handle))
  | deliver _ => answer = .delivered ⟨calls.length, calls.filterMap Call.report?⟩
  | pump updates => answer = .pumped updates.length (calls.filterMap Call.report?)

/-- What a step does after what has happened. -/
structure Faithful (net : CompiledNet α) (past : List (Step α σ)) (step : Step α σ) : Prop where
  /-- Update by update, the subscribers of its channel are called in turn. -/
  calls : step.calls.map (fun c => (c.handle, c.update)) = step.op.updates.flatMap fun update =>
    ((subscribers net past).filter (·.channel == update.channel)).map (·.handle, update)
  /-- Each failure is reported once, right after the call. -/
  events : step.events = step.calls.flatMap Call.events
  answer : step.op.Answered net (subscribers net past) step.calls step.answer

/-! ### Delivery -/

@[simp] theorem filterMap_events (calls : List (Call α)) :
    (calls.flatMap Call.events).filterMap Event.call? = calls := by
  induction calls with
  | nil => rfl
  | cons c rest ih =>
      rw [List.flatMap_cons, List.filterMap_append, ih]
      cases hreport : c.report? <;> simp [Call.events, hreport, Event.call?]

/-- A hub whose calls are recorded. -/
structure Records (handler : ListenerFailure → StateM σ Unit)
    (hub : Hub α (σ × List (Event α))) : Prop where
  onFailure : hub.onFailure = noting handler
  callbacks : ∀ l ∈ hub.listeners, ∃ callback, l.callback = noted l.handle l.channel callback

section Records

variable {handler : ListenerFailure → StateM σ Unit} {hub : Hub α (σ × List (Event α))}

/-- The first of several listeners is called, its failure is reported, and the
others follow. -/
theorem Records.call_cons (h : hub.Records handler) {update : Update α}
    {l : Listener α (σ × List (Event α))} (hl : l ∈ hub.listeners)
    (hchannel : l.channel = update.channel) (rest : List (Listener α (σ × List (Event α))))
    (s : σ) (events : List (Event α)) :
    ∃ (c : Call α) (s' : σ), c.handle = l.handle ∧ c.update = update ∧
      hub.call update (l :: rest) (s, events) =
        let r := hub.call update rest (s', events ++ c.events)
        (⟨r.1.invoked + 1, c.report?.toList ++ r.1.failures⟩, r.2) := by
  obtain ⟨callback, hcallback⟩ := h.callbacks l hl
  let c : Call α := ⟨l.handle, update, (callback update.value s).1⟩
  have hfirst : l.callback update.value (s, events) =
      (c.outcome, (callback update.value s).2, events ++ [.called c]) := by
    rw [hcallback, hchannel]
    rfl
  cases hreport : c.report? with
  | none =>
      refine ⟨c, (callback update.value s).2, rfl, rfl, ?_⟩
      have hnone : c.outcome.complaint? = none := Option.map_eq_none_iff.mp hreport
      simp [Hub.call, state_bind, state_map, state_pure, hfirst, hnone, Call.events, hreport]
  | some failure =>
      refine ⟨c, (handler failure (callback update.value s).2).2, rfl, rfl, ?_⟩
      obtain ⟨message, hsome, rfl⟩ := Option.map_eq_some_iff.mp hreport
      simp [Hub.call, state_bind, state_map, hfirst, hsome, Call.events, hreport, h.onFailure,
        noting, c]

/-- Calling listeners records a call of each, in order, whatever they do. -/
theorem Records.call (h : hub.Records handler) {update : Update α}
    {listeners : List (Listener α (σ × List (Event α)))}
    (hmem : ∀ l ∈ listeners, l ∈ hub.listeners ∧ l.channel = update.channel) (s : σ)
    (events : List (Event α)) :
    ∃ (calls : List (Call α)) (s' : σ), hub.call update listeners (s, events) =
        (⟨calls.length, calls.filterMap Call.report?⟩, s', events ++ calls.flatMap Call.events) ∧
      calls.map (fun c => (c.handle, c.update)) = listeners.map (·.handle, update) := by
  induction listeners generalizing s events with
  | nil => exact ⟨[], s, by simp [Hub.call, state_pure], rfl⟩
  | cons l rest ih =>
      obtain ⟨hl, hchannel⟩ := hmem l List.mem_cons_self
      obtain ⟨c, s₁, hhandle, hupdate, hfirst⟩ := h.call_cons hl hchannel rest s events
      obtain ⟨calls, s', hrest, hcalls⟩ :=
        ih (fun l' hl' => hmem l' (List.mem_cons_of_mem _ hl')) s₁ (events ++ c.events)
      refine ⟨c :: calls, s', ?_, ?_⟩
      · rw [hfirst, hrest]
        cases hreport : c.report? <;> simp [hreport]
      · simp [hcalls, hhandle, hupdate]

theorem Records.deliver (h : hub.Records handler) (update : Update α) (s : σ)
    (events : List (Event α)) :
    ∃ (calls : List (Call α)) (s' : σ), hub.deliver update (s, events) =
        (⟨calls.length, calls.filterMap Call.report?⟩, s', events ++ calls.flatMap Call.events) ∧
      calls.map (fun c => (c.handle, c.update)) =
        (hub.listeners.filter (·.channel == update.channel)).map (·.handle, update) := by
  refine h.call ?_ s events
  intro l hl
  obtain ⟨hmem, hchannel⟩ := List.mem_filter.mp hl
  exact ⟨hmem, beq_iff_eq.mp hchannel⟩

theorem Records.pump (h : hub.Records handler) (updates : List (Update α)) (s : σ)
    (events : List (Event α)) :
    ∃ (calls : List (Call α)) (s' : σ), hub.pump updates (s, events) =
        ((updates.length, calls.filterMap Call.report?), s',
          events ++ calls.flatMap Call.events) ∧
      calls.map (fun c => (c.handle, c.update)) = updates.flatMap fun update =>
        (hub.listeners.filter (·.channel == update.channel)).map (·.handle, update) := by
  induction updates generalizing s events with
  | nil => exact ⟨[], s, by simp [Hub.pump, state_pure], rfl⟩
  | cons update rest ih =>
      obtain ⟨first, s₁, hfirst, hcalls⟩ := h.deliver update s events
      obtain ⟨others, s', hrest, hcalls'⟩ := ih s₁ (events ++ first.flatMap Call.events)
      refine ⟨first ++ others, s', ?_, ?_⟩
      · simp [Hub.pump, state_bind, state_map, hfirst, hrest]
      · simp [hcalls, hcalls']

end Records

/-! ### The subscriptions of a hub -/

section Subscribers

variable {net : CompiledNet α}

/-- What happens later ends some of the subscriptions and brings new ones. -/
theorem subscribers_append (past later : List (Step α σ)) :
    subscribers net (past ++ later) =
      (subscribers net past).filter (fun sub => !later.any (·.ends sub.handle)) ++
        subscribers net later := by
  induction past with
  | nil => rfl
  | cons step rest ih =>
      simp only [List.cons_append, subscribers, ih, List.filter_append, List.filter_filter,
        List.append_assoc, List.any_append, Bool.not_or, Bool.and_comm]

/-- All subscriptions, ended or not. -/
def subscriptions (net : CompiledNet α) (steps : List (Step α σ)) : List Subscription :=
  steps.filterMap (·.subscription? net)

theorem mem_subscriptions {steps : List (Step α σ)} {sub : Subscription}
    (h : sub ∈ subscribers net steps) : sub ∈ subscriptions net steps := by
  induction steps with
  | nil => cases h
  | cons step rest ih =>
      unfold subscriptions at ih ⊢
      rw [List.filterMap_cons]
      rcases List.mem_append.mp h with hfirst | hrest
      · have hsome := (List.mem_filter.mp hfirst).1
        cases hstep : step.subscription? net <;> simp_all
      · cases hstep : step.subscription? net with
        | none => exact ih hrest
        | some other => exact List.mem_cons_of_mem _ (ih hrest)

end Subscribers

/-- The hub holds the subscriptions that the steps so far have left, and hands
out handles in order. -/
structure Describes (net : CompiledNet α) (handler : ListenerFailure → StateM σ Unit)
    (past : List (Step α σ)) (hub : Hub α (σ × List (Event α))) : Prop where
  records : hub.Records handler
  channels : hub.channels = net.observed
  listeners : hub.listeners.map (fun l => ⟨l.handle, l.channel⟩) = subscribers net past
  handles : ∀ sub ∈ subscriptions net past, sub.handle < hub.next
  ordered : ((subscriptions net past).map (·.handle)).Pairwise (· < ·)

section Describes

variable {net : CompiledNet α} {handler : ListenerFailure → StateM σ Unit}
  {past : List (Step α σ)} {hub : Hub α (σ × List (Event α))}

theorem describes_watch (net : CompiledNet α) (handler : ListenerFailure → StateM σ Unit) :
    Describes net handler [] (watch net handler) where
  records := ⟨rfl, by simp [watch, ofNet]⟩
  channels := rfl
  listeners := rfl
  handles := by simp [subscriptions]
  ordered := List.Pairwise.nil

/-- The listeners that an update reaches. -/
theorem Describes.callees (h : Describes net handler past hub) (update : Update α) :
    (hub.listeners.filter (·.channel == update.channel)).map (·.handle, update) =
      ((subscribers net past).filter (·.channel == update.channel)).map (·.handle, update) := by
  rw [← h.listeners, List.filter_map, List.map_map]
  rfl

/-- A step that subscribes nothing and calls nobody. -/
theorem Describes.quiet (h : Describes net handler past hub) {step : Step α σ}
    {listeners : List (Listener α (σ × List (Event α)))}
    (hnone : step.subscription? net = none)
    (hlisteners : listeners = hub.listeners.filter fun l => !step.ends l.handle) :
    Describes net handler (past ++ [step]) { hub with listeners } := by
  subst hlisteners
  refine ⟨⟨h.records.onFailure, ?_⟩, h.channels, ?_, ?_, ?_⟩
  · intro l hl
    exact h.records.callbacks l (List.mem_filter.mp hl).1
  · rw [subscribers_append, ← h.listeners, List.filter_map]
    simp [subscribers, hnone, Function.comp_def]
  · simpa [subscriptions, hnone] using h.handles
  · simpa [subscriptions, hnone] using h.ordered

/-- A subscription with the next handle. -/
theorem Describes.subscribe (h : Describes net handler past hub) {step : Step α σ}
    {channel : String} (callback : Value α → StateM σ Outcome)
    (hsome : step.subscription? net = some ⟨hub.next, channel⟩)
    (hends : ∀ handle, step.ends handle = false) :
    Describes net handler (past ++ [step]) { hub with
      listeners := hub.listeners ++ [⟨hub.next, channel, noted hub.next channel callback⟩]
      next := hub.next + 1 } := by
  have hsubscriptions : subscriptions net (past ++ [step]) =
      subscriptions net past ++ [⟨hub.next, channel⟩] := by
    simp [subscriptions, hsome]
  refine ⟨⟨h.records.onFailure, ?_⟩, h.channels, ?_, ?_, ?_⟩
  · intro l hl
    rcases List.mem_append.mp hl with hold | hnew
    · exact h.records.callbacks l hold
    · obtain rfl := List.mem_singleton.mp hnew
      exact ⟨callback, rfl⟩
  · rw [subscribers_append, ← h.listeners]
    simp [subscribers, hsome, hends]
  · rw [hsubscriptions]
    intro sub hsub
    rcases List.mem_append.mp hsub with hold | hnew
    · exact Nat.lt_succ_of_lt (h.handles sub hold)
    · obtain rfl := List.mem_singleton.mp hnew
      exact Nat.lt_succ_self _
  · rw [hsubscriptions, List.map_append, List.pairwise_append]
    refine ⟨h.ordered, List.pairwise_singleton _ _, ?_⟩
    intro handle hhandle next hnext
    obtain ⟨sub, hsub, rfl⟩ := List.mem_map.mp hhandle
    obtain rfl := List.mem_singleton.mp hnext
    exact h.handles sub hsub

/-- What is seen of an operation whose calls are known. -/
theorem Describes.faithful (h : Describes net handler past hub) {op : Op α σ} {answer : Answer}
    (calls : List (Call α))
    (hcalls : calls.map (fun c => (c.handle, c.update)) = op.updates.flatMap fun update =>
      (hub.listeners.filter (·.channel == update.channel)).map (·.handle, update))
    (hanswer : op.Answered net (subscribers net past) calls answer) :
    Faithful net past ⟨op, answer, calls.flatMap Call.events⟩ := by
  have hsame : Step.calls (⟨op, answer, calls.flatMap Call.events⟩ : Step α σ) = calls :=
    filterMap_events calls
  refine ⟨?_, ?_, ?_⟩
  · rw [hsame, hcalls]
    simp only [h.callees]
  · rw [hsame]
  · rw [hsame]
    exact hanswer

/-- **One operation.** -/
theorem Describes.perform (h : Describes net handler past hub) (op : Op α σ) (s : σ) :
    (perform op hub s).1.op = op ∧ Faithful net past (perform op hub s).1 ∧
      Describes net handler (past ++ [(perform op hub s).1]) (perform op hub s).2.1 := by
  cases op with
  | observe id callback =>
      cases hchannel : net.observed.get? id with
      | none =>
          have hrun : Hub.perform (.observe id callback) hub s =
              (⟨.observe id callback, .refused (.notObserved id), []⟩, hub, s) := by
            simp [Hub.perform, Hub.observe, h.channels, hchannel]
          rw [hrun]
          refine ⟨rfl, h.faithful [] rfl (by simp [Op.Answered, hchannel]), ?_⟩
          exact h.quiet rfl (by simp [Step.ends])
      | some channel =>
          have hrun : Hub.perform (.observe id callback) hub s =
              (⟨.observe id callback, .subscribed hub.next, []⟩, { hub with
                listeners := hub.listeners ++ [⟨hub.next, channel, noted hub.next channel callback⟩]
                next := hub.next + 1 }, s) := by
            simp [Hub.perform, Hub.observe, h.channels, hchannel]
          rw [hrun]
          refine ⟨rfl, h.faithful [] rfl (by simp [Op.Answered, hchannel]), ?_⟩
          exact h.subscribe callback (by simp [Step.subscription?, hchannel]) fun _ => rfl
  | unobserve handle =>
      have hended : hub.listeners.any (·.handle == handle) =
          (subscribers net past).any (·.handle == handle) := by
        rw [← h.listeners, List.any_map]
        rfl
      have hrun : Hub.perform (.unobserve handle) hub s =
          (⟨.unobserve handle, .ended (hub.listeners.any (·.handle == handle)), []⟩,
            { hub with listeners := hub.listeners.filter (·.handle != handle) }, s) := rfl
      rw [hrun]
      refine ⟨rfl, h.faithful [] rfl (congrArg _ hended), ?_⟩
      exact h.quiet rfl (by simp [Step.ends, bne])
  | deliver update =>
      obtain ⟨calls, s', hcall, hcalls⟩ := h.records.deliver update s []
      have hrun : Hub.perform (.deliver update) hub s =
          (⟨.deliver update, .delivered ⟨calls.length, calls.filterMap Call.report?⟩,
            calls.flatMap Call.events⟩, hub, s') := by
        simp [Hub.perform, hcall]
      rw [hrun]
      refine ⟨rfl, h.faithful calls (by simpa [Op.updates] using hcalls) rfl, ?_⟩
      exact h.quiet rfl (by simp [Step.ends])
  | pump updates =>
      obtain ⟨calls, s', hcall, hcalls⟩ := h.records.pump updates s []
      have hrun : Hub.perform (.pump updates) hub s =
          (⟨.pump updates, .pumped updates.length (calls.filterMap Call.report?),
            calls.flatMap Call.events⟩, hub, s') := by
        simp [Hub.perform, hcall]
      rw [hrun]
      refine ⟨rfl, h.faithful calls hcalls rfl, ?_⟩
      exact h.quiet rfl (by simp [Step.ends])

end Describes

/-- Every step of a history is faithful, and handles are given out in order. -/
theorem Describes.history {net : CompiledNet α} {handler : ListenerFailure → StateM σ Unit}
    {past : List (Step α σ)} {hub : Hub α (σ × List (Event α))}
    (h : Describes net handler past hub) (ops : List (Op α σ)) (s : σ) :
    (history ops hub s).map (·.op) = ops ∧
      (∀ before step after, history ops hub s = before ++ step :: after →
        Faithful net (past ++ before) step) ∧
      ((subscriptions net (past ++ history ops hub s)).map (·.handle)).Pairwise (· < ·) := by
  induction ops generalizing past hub s with
  | nil => exact ⟨rfl, by simp [Hub.history], by simpa [Hub.history] using h.ordered⟩
  | cons op rest ih =>
      obtain ⟨hop, hfaithful, hnext⟩ := h.perform op s
      obtain ⟨hops, hsteps, hordered⟩ := ih hnext (Hub.perform op hub s).2.2
      have hhistory : Hub.history (op :: rest) hub s = (Hub.perform op hub s).1 ::
          Hub.history rest (Hub.perform op hub s).2.1 (Hub.perform op hub s).2.2 := rfl
      rw [hhistory]
      refine ⟨by rw [List.map_cons, hop, hops], ?_, by simpa using hordered⟩
      intro before step after hsplit
      cases before with
      | nil =>
          obtain ⟨rfl, -⟩ := List.cons.inj hsplit
          simpa using hfaithful
      | cons first before =>
          obtain ⟨rfl, htail⟩ := List.cons.inj hsplit
          simpa using hsteps before step after htail

/-! ### A single subscription -/

section Single

variable {net : CompiledNet α} {past later : List (Step α σ)} {step : Step α σ}
  {sub : Subscription}

/-- Whoever is called has subscribed before. -/
theorem Faithful.subscribed (h : Faithful net past step) {c : Call α} (hc : c ∈ step.calls) :
    ∃ sub ∈ subscribers net past, sub.handle = c.handle := by
  have hmem : (c.handle, c.update) ∈ step.calls.map fun c => (c.handle, c.update) :=
    List.mem_map_of_mem hc
  rw [h.calls] at hmem
  obtain ⟨update, -, hupdate⟩ := List.mem_flatMap.mp hmem
  obtain ⟨sub, hsub, heq⟩ := List.mem_map.mp hupdate
  exact ⟨sub, (List.mem_filter.mp hsub).1, congrArg Prod.fst heq⟩

/-- Subscriptions before and after one have other handles. -/
theorem handle_ne (hsub : step.subscription? net = some sub)
    (hordered : ((subscriptions net (past ++ step :: later)).map (·.handle)).Pairwise (· < ·))
    {other : Subscription}
    (h : other ∈ subscriptions net past ∨ other ∈ subscriptions net later) :
    other.handle ≠ sub.handle := by
  have hsplit : (subscriptions net (past ++ step :: later)).map (·.handle) =
      (subscriptions net past).map (·.handle) ++
        (sub.handle :: (subscriptions net later).map (·.handle)) := by
    simp [subscriptions, hsub]
  rw [hsplit, List.pairwise_append, List.pairwise_cons] at hordered
  obtain ⟨-, ⟨hlater, -⟩, hpast⟩ := hordered
  rcases h with h | h
  · exact Nat.ne_of_lt (hpast _ (List.mem_map_of_mem h) _ List.mem_cons_self)
  · exact Nat.ne_of_gt (hlater _ (List.mem_map_of_mem h))

/-- The active subscriptions with the handle of one that was made. -/
theorem subscribers_filter_handle (hsub : step.subscription? net = some sub)
    (hordered : ((subscriptions net (past ++ step :: later)).map (·.handle)).Pairwise (· < ·)) :
    (subscribers net (past ++ step :: later)).filter (·.handle == sub.handle) =
      if later.any (·.ends sub.handle) then [] else [sub] := by
  have hother : ∀ subs : List Subscription, (∀ other ∈ subs, other ∈ subscribers net past ∨
      other ∈ subscribers net later) → subs.filter (·.handle == sub.handle) = [] := by
    intro subs hsubs
    rw [List.filter_eq_nil_iff]
    intro other hmem
    simpa using handle_ne hsub hordered ((hsubs other hmem).imp mem_subscriptions mem_subscriptions)
  rw [subscribers_append, List.filter_append, subscribers, List.filter_append,
    hother _ fun other hmem => Or.inl (List.mem_filter.mp hmem).1,
    hother (subscribers net later) fun other hmem => Or.inr hmem]
  cases hended : later.any (·.ends sub.handle) <;> simp [hsub, hended]

/-- The updates with which a handle is called in a step. -/
theorem Faithful.calls_filter_handle (h : Faithful net past step) (handle : Nat) :
    (step.calls.filter (·.handle == handle)).map (·.update) =
      step.op.updates.flatMap fun update =>
        (((subscribers net past).filter (·.handle == handle)).filter
          (·.channel == update.channel)).map fun _ => update := by
  have hpairs : (step.calls.filter (·.handle == handle)).map (·.update) =
      ((step.calls.map fun c => (c.handle, c.update)).filter (·.1 == handle)).map (·.2) := by
    rw [List.filter_map, List.map_map]
    rfl
  rw [hpairs, h.calls, List.filter_flatMap, List.map_flatMap]
  congr 1
  funext update
  rw [List.filter_map, List.map_map, List.filter_filter, List.filter_filter]
  simp [Function.comp_def, Bool.and_comm]

/-- **After a subscription**, a step calls its handle once for each update on
its channel, unless it has been ended. -/
theorem Faithful.calls_of_subscribed (hsub : step.subscription? net = some sub)
    (hordered : ((subscriptions net (past ++ step :: later)).map (·.handle)).Pairwise (· < ·))
    {next : Step α σ} (h : Faithful net (past ++ step :: later) next) :
    (next.calls.filter (·.handle == sub.handle)).map (·.update) =
      if later.any (·.ends sub.handle) then []
      else next.op.updates.filter (·.channel == sub.channel) := by
  rw [h.calls_filter_handle, subscribers_filter_handle hsub hordered]
  split
  · simp
  · induction next.op.updates with
    | nil => rfl
    | cons update rest ih =>
        rw [List.flatMap_cons, ih, List.filter_cons]
        by_cases hchannel : sub.channel = update.channel
        · simp [hchannel]
        · simp [hchannel, Ne.symm hchannel]

/-- What follows a subscription, from some later point on. -/
theorem calls_from (hsub : step.subscription? net = some sub) (before after : List (Step α σ))
    (hordered : ((subscriptions net (past ++ step :: (before ++ after))).map
      (·.handle)).Pairwise (· < ·))
    (hsteps : ∀ between next rest, after = between ++ next :: rest →
      Faithful net (past ++ step :: (before ++ between)) next) :
    ((after.flatMap Step.calls).filter (·.handle == sub.handle)).map (·.update) =
      if before.any (·.ends sub.handle) then []
      else ((after.takeWhile fun s => !s.ends sub.handle).flatMap (·.op.updates)).filter
        (·.channel == sub.channel) := by
  induction after generalizing before with
  | nil => simp
  | cons next rest ih =>
      have hnext : Faithful net (past ++ step :: before) next := by
        simpa using hsteps [] next rest rfl
      have hprefix : ((subscriptions net (past ++ step :: before)).map (·.handle)).Pairwise
          (· < ·) := by
        refine hordered.sublist (List.Sublist.map _ (List.Sublist.filterMap _ ?_))
        simp
      have hrest := ih (before ++ [next]) (by simpa using hordered) (by
        intro between other after hsplit
        simpa using hsteps (next :: between) other after (by rw [hsplit]; rfl))
      rw [List.flatMap_cons, List.filter_append, List.map_append, hrest,
        hnext.calls_of_subscribed hsub hprefix, List.any_append]
      cases hbefore : before.any (·.ends sub.handle)
      · cases hends : next.ends sub.handle
        · simp [hends]
        · simp [hends, Step.updates_of_ends hends]
      · simp

/-- **One subscription** is called once for each update on its channel that
comes after it and before its end, in the order of the updates, and never
otherwise. -/
theorem subscription_calls (hsub : step.subscription? net = some sub)
    (hordered : ((subscriptions net (past ++ step :: later)).map (·.handle)).Pairwise (· < ·))
    (hsteps : ∀ before next after, past ++ step :: later = before ++ next :: after →
      Faithful net before next) :
    (((past ++ step :: later).flatMap Step.calls).filter (·.handle == sub.handle)).map
        (·.update) =
      ((later.takeWhile fun s => !s.ends sub.handle).flatMap (·.op.updates)).filter
        (·.channel == sub.channel) := by
  have hbefore : (past.flatMap Step.calls).filter (·.handle == sub.handle) = [] := by
    rw [List.filter_eq_nil_iff]
    intro c hc
    obtain ⟨earlier, hmem, hcall⟩ := List.mem_flatMap.mp hc
    obtain ⟨before, after, rfl⟩ := List.append_of_mem hmem
    obtain ⟨other, hother, hhandle⟩ :=
      (hsteps before earlier (after ++ step :: later) (by simp)).subscribed hcall
    rw [beq_iff_eq, ← hhandle]
    refine handle_ne hsub hordered (Or.inl ?_)
    unfold subscriptions
    rw [List.filterMap_append]
    exact List.mem_append_left _ (mem_subscriptions hother)
  have hstep : step.calls = [] := by
    have hcalls := (hsteps past step later rfl).calls
    rw [Step.updates_of_subscription hsub] at hcalls
    exact List.map_eq_nil_iff.mp hcalls
  have hafter := calls_from hsub [] later hordered (by
    intro between next rest hsplit
    exact hsteps _ next rest (by simp [hsplit]))
  rw [List.flatMap_append, List.flatMap_cons, hstep, List.nil_append, List.filter_append,
    hbefore, List.nil_append]
  simpa using hafter

end Single

/-- **Delivery is exactly once and in order.**  Let a client of any network
subscribe, unsubscribe and pass updates on as it likes, with callbacks that
succeed, fail or break off as they like.

* Every operation is faithful to the subscriptions that are active: for each
  update, their callbacks are called in the order of subscription, whether
  others fail or not; each failure is reported once, with its handle and
  channel, right after the call; and the client is told how many were called.
* A subscription is called for the updates on its channel that are passed on
  after it and before it ends, once each and in that order, and for no others.
* Handles grow, so none is used twice.

Handles are counted without a bound here.  A counter of 64 bits counts the same
as long as there have been fewer than `2 ^ 64` subscriptions. -/
theorem history_exactly_once (net : CompiledNet α) (handler : ListenerFailure → StateM σ Unit)
    (ops : List (Op α σ)) (s : σ) :
    let steps := history ops (watch net handler) s
    steps.map (·.op) = ops ∧
    (∀ past step later, steps = past ++ step :: later → Faithful net past step) ∧
    (∀ past step later sub, steps = past ++ step :: later → step.subscription? net = some sub →
      ((steps.flatMap Step.calls).filter (·.handle == sub.handle)).map (·.update) =
        ((later.takeWhile fun s => !s.ends sub.handle).flatMap (·.op.updates)).filter
          (·.channel == sub.channel)) ∧
    ((subscriptions net steps).map (·.handle)).Pairwise (· < ·) := by
  intro steps
  obtain ⟨hops, hsteps, hordered⟩ := (describes_watch net handler).history ops s
  refine ⟨hops, hsteps, ?_, hordered⟩
  intro past step later sub hsplit hsub
  rw [hsplit]
  refine subscription_calls hsub (by simpa [← hsplit] using hordered) ?_
  intro before next after hsplit'
  exact hsteps before next after (hsplit.trans hsplit')

/-- The first of two listeners fails and both are called, until the first one
is removed. -/
example :
    let net : CompiledNet Float := ⟨{}, none, .empty, .empty, ⟨[(3, "speed")]⟩⟩
    let steps := history
      [.observe 3 fun _ => pure (.failed "late"), .observe 3 fun _ => pure .handled,
        .deliver ⟨"speed", .integer 1⟩, .unobserve 0, .deliver ⟨"speed", .integer 2⟩]
      (watch net fun _ => pure ()) ()
    (steps.flatMap Step.calls).map (fun c => (c.handle, c.report?)) =
      [(0, some ⟨0, "speed", "late"⟩), (1, none), (1, none)] := by
  decide +kernel

end SignalNet.Hub
