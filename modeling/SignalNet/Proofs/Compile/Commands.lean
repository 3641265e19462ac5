import SignalNet.Proofs.Compile.Announced
import SignalNet.Proofs.Motion.Scale
import SignalNet.Proofs.Motion.Slowing
import SignalNet.Proofs.Motion.Verdicts

/-!
# Compiled commands

Every command holds the loop of a scale, and this file follows the loop from
the calls that build the command to its network.

1.  Lowering a command collects the ports that request cancellation: that of
    its input, and those of the triggers of handlers that cancel
    (`Session.lowerRequests_eq_ok`).
2.  Lowering the rest leaves sources for the two placeholders of the loop, and
    ports for the override and for being cancelled (`Session.Serves`).
3.  Closing the network resolves the placeholders and announces the ports
    (`Session.compile_serves`), so that the network holds the loop as
    `Fragment.Scales` says it (`Session.Cancels.loops`).
-/

namespace SignalNet

open Computing Lowering

variable {α : Type} [Scalar α]

/-! ### Sharing -/

/-- Doubles are identified with doubles only. -/
theorem Value.eq_double {v : Value α} {a : α} (h : v.canonical = (Value.double a).canonical) :
    ∃ z, v = .double z ∧ Scalar.same z a = true := by
  cases v with
  | double z => exact ⟨z, rfl, Scalar.same_iff.mpr (Value.double.inj h)⟩
  | _ => cases h

omit [Scalar α] in
/-- Forms without constants, which sharing keeps as they are. -/
def Form.isKept : Form α → Bool
  | .constant _ | .pre _ _ => false
  | _ => true

theorem Form.eq_of_isKept {form form' : Form α} (hkept : form.isKept = true)
    (h : form'.canonical = form.canonical) : form' = form := by
  have hself : form.canonical = form := by
    cases form with
    | constant v => cases hkept
    | pre x v => cases hkept
    | _ => rfl
  rw [hself] at h
  subst h
  cases form' with
  | constant v => cases hkept
  | pre x v => cases hkept
  | _ => rfl

theorem Form.eq_pre_of_canonical {form : Form α} {x : ExprId} {v : Value α}
    (h : form.canonical = (Form.pre x v).canonical) :
    ∃ w, form = .pre x w ∧ w.canonical = v.canonical := by
  cases form with
  | pre y w =>
      obtain ⟨rfl, hw⟩ := Form.pre.inj h
      exact ⟨w, rfl, hw⟩
  | _ => cases h

omit [Scalar α] in
/-- The forms that the scale of a command and its override are made of. -/
def Form.inScale : Form α → Bool
  | .constant _ | .input _ | .clock _ | .placeholder _ _ => true
  | .pre _ _ | .select _ _ _ | .limit _ _ _ => true
  | .binary .sub _ _ | .binary .mul _ _ | .binary .div _ _ => true
  | _ => false

namespace Session

/-- Lower what comes before cancellation: the action of a command, its input
and its handlers.  The result holds the ports that request cancellation. -/
def lowerRequests (program : Program α) (c : Command α) : Lowering α (ActionPorts × Handled) := do
  let action ← lowerAction program c.action
  addResolver ⟨[c.scaleState], .expression c.scale⟩
  let ramps := c.action.scalePlaceholders
  if !ramps.isEmpty then addResolver ⟨ramps, .expression c.effective⟩
  let cancelInput ← lower program c.cancelInput
  let handled ← lowerHandlers program action c.handlers ⟨action.signals, [cancelInput]⟩
  return (action, handled)

/-- Lower the triggers of handlers in order, each to a port or to nothing. -/
def lowerTriggers (program : Program α) (action : ActionPorts) :
    List (Handler α) → Lowering α (List (Option PortId))
  | [] => pure []
  | handler :: rest => do
    let found ← lowerState program action handler.trigger
    return found :: (← lowerTriggers program action rest)

omit [Scalar α] in
/-- The ports among those of the triggers that request cancellation. -/
def cancelPorts (handlers : List (Handler α)) (found : List (Option PortId)) : List PortId :=
  (handlers.zip found).filterMap fun (handler, port) =>
    if handler.reaction = .cancel then port else none

/-- Handlers are lowered from the input for cancellation on. -/
theorem lowerRequests_eq (program : Program α) (c : Command α) :
    lowerRequests program c = (do
      let (action, cancelInput) ← lowerCancelInput program c
      let handled ← lowerHandlers program action c.handlers ⟨action.signals, [cancelInput]⟩
      return (action, handled)) := by
  unfold lowerRequests lowerCancelInput
  simp only [bind_assoc]
  congr 1
  funext action
  congr 1
  funext _
  split
  · simp only [bind_assoc, pure_bind]
  · simp only [bind_assoc, pure_bind]

/-- A command is lowered from its requests on. -/
theorem lowerCommand_eq (program : Program α) (c : Command α) :
    lowerCommand program c = (do
      let (action, handled) ← lowerRequests program c
      lowerCancellation program c action handled) := by
  rw [lowerCommand_stages, lowerRequests_eq]
  simp only [bind_assoc, pure_bind]

variable {program : Program α} {s s' : Session α} {c : Command α}

/-- The targets of the sources that are collected before cancellation. -/
def earlyTargets (c : Command α) : List ExprId :=
  c.scaleState :: c.action.placeholders

/-! ### What commands respect -/

section Closed

variable {targets : List ExprId} {R : Session α → Session α → Prop}

theorem Closed.lowerCancelInput (h : Closed program targets R)
    (hc : ∀ id ∈ earlyTargets c, id ∈ targets) :
    Leaves R (Session.lowerCancelInput program c) := by
  have hramps : ∀ id ∈ c.action.placeholders, id ∈ targets := fun id hid =>
    hc id (List.mem_cons_of_mem _ hid)
  refine h.bind (h.lowerAction fun id hid => hramps id (List.mem_append_left _ hid)) fun _ => ?_
  refine h.bind (h.addResolver _ ?_) fun _ => ?_
  · simpa using hc c.scaleState List.mem_cons_self
  dsimp only
  split
  · refine h.bind (h.addResolver _ fun id hid => ?_) fun _ => h.bind (h.lower _) fun _ => h.pure _
    exact hramps id (List.mem_append_right _ hid)
  · exact h.bind (h.lower _) fun _ => h.pure _

theorem Closed.lowerTriggers (h : Closed program targets R) (action : ActionPorts)
    (handlers : List (Handler α)) : Leaves R (Session.lowerTriggers program action handlers) := by
  induction handlers with
  | nil => exact h.pure _
  | cons handler rest ih =>
      exact h.bind (h.lowerState action handler.trigger) fun _ => h.bind ih fun _ => h.pure _

theorem Closed.lowerCancellation (h : Closed program targets R) (hc : c.cancel ∈ targets)
    (action : ActionPorts) (handled : Handled) :
    Leaves R (Session.lowerCancellation program c action handled) := by
  refine h.bind (h.anyOf _) fun cancel => ?_
  refine h.bind (h.addResolver _ (by simpa using hc)) fun _ => ?_
  refine h.bind (h.lower _) fun scale => ?_
  refine h.bind (h.constPort _) fun still => ?_
  refine h.bind (h.add _ _ _) fun stopped => ?_
  refine h.bind (h.allOf _) fun cancelled => ?_
  refine h.bind (h.lower _) fun effective => ?_
  exact h.bind (h.storeEach _) fun _ => h.pure _

/-- A command respects what its steps respect. -/
theorem Closed.lowerCommand (h : Closed program targets R)
    (hc : ∀ id ∈ c.cancel :: earlyTargets c, id ∈ targets) :
    Leaves R (Session.lowerCommand program c) := by
  have hrequests : Leaves R (lowerRequests program c) := by
    rw [lowerRequests_eq]
    exact h.bind (h.lowerCancelInput fun id hid => hc id (List.mem_cons_of_mem _ hid)) fun _ =>
      h.bind (h.lowerHandlers _ _ _) fun _ => h.pure _
  rw [lowerCommand_eq]
  exact h.bind hrequests fun _ => h.lowerCancellation (hc c.cancel List.mem_cons_self) _ _

end Closed

/-! ### What requests cancellation -/

omit [Scalar α] in
/-- A source that is collected for a placeholder without one is the first. -/
theorem resolver?_addResolver {r : Resolver α} {id : ExprId} (hnone : s.resolver? id = none)
    (hid : id ∈ r.targets) {u : Unit} (hrun : addResolver r s = .ok u s') :
    s'.resolver? id = some r := by
  obtain rfl := modify_eq_ok.mp hrun
  unfold resolver? at hnone ⊢
  rw [List.find?_append, hnone, Option.none_or]
  simp [hid]

/-- **Handlers** add the ports of those triggers that cancel, and no ports for
states. -/
theorem lowerHandlers_eq_ok {action : ActionPorts} {handlers : List (Handler α)}
    {done handled : Handled}
    (hrun : lowerHandlers program action handlers done s = .ok handled s') :
    (∀ state, handled.signals.statePorts state = done.signals.statePorts state) ∧
      ∃ found, lowerTriggers program action handlers s = .ok found s' ∧
        handled.cancels = done.cancels ++ cancelPorts handlers found := by
  induction handlers generalizing done s with
  | nil =>
      obtain ⟨rfl, rfl⟩ := pure_eq_ok.mp hrun
      exact ⟨fun _ => rfl, [], rfl, (List.append_nil _).symm⟩
  | cons handler rest ih =>
      obtain ⟨found, s₁, hfirst, hafter⟩ := bind_eq_ok.mp hrun
      -- What the first trigger is lowered to comes before the rest.
      have hcons : ∀ {others : List (Option PortId)},
          lowerTriggers program action rest s₁ = .ok others s' →
          lowerTriggers program action (handler :: rest) s = .ok (found :: others) s' :=
        fun hrest => bind_eq_ok.mpr ⟨found, s₁, hfirst,
          bind_eq_ok.mpr ⟨_, s', hrest, pure_eq_ok.mpr ⟨rfl, rfl⟩⟩⟩
      cases found with
      | none =>
          obtain ⟨hsignals, others, hrest, hcancels⟩ := ih hafter
          refine ⟨hsignals, none :: others, hcons hrest, ?_⟩
          simp [hcancels, cancelPorts]
      | some port =>
          cases hreaction : handler.reaction with
          | raise e =>
              simp only [hreaction] at hafter
              obtain ⟨hsignals, others, hrest, hcancels⟩ := ih hafter
              refine ⟨?_, some port :: others, hcons hrest, ?_⟩
              · intro state
                rw [hsignals, Registry.statePorts_register_of_ne (by simp)]
              · simp [hcancels, cancelPorts, hreaction]
          | cancel =>
              simp only [hreaction] at hafter
              obtain ⟨hsignals, others, hrest, hcancels⟩ := ih hafter
              refine ⟨hsignals, some port :: others, hcons hrest, ?_⟩
              simp [hcancels, cancelPorts, hreaction]

/-- The requests of a command, step by step. -/
theorem lowerRequests_eq_ok {action : ActionPorts} {handled : Handled}
    (hrun : lowerRequests program c s = .ok (action, handled) s') :
    (∀ state, handled.signals.statePorts state = action.signals.statePorts state) ∧
      ∃ input s₁ found, lowerCancelInput program c s = .ok (action, input) s₁ ∧
        lowerTriggers program action c.handlers s₁ = .ok found s' ∧
        handled.cancels = input :: cancelPorts c.handlers found := by
  rw [lowerRequests_eq] at hrun
  obtain ⟨⟨_, input⟩, s₁, hinput, hafter⟩ := bind_eq_ok.mp hrun
  obtain ⟨_, s₂, hhandlers, hpure⟩ := bind_eq_ok.mp hafter
  obtain ⟨heq, rfl⟩ := pure_eq_ok.mp hpure
  cases heq
  obtain ⟨hsignals, found, htriggers, hcancels⟩ := lowerHandlers_eq_ok hhandlers
  exact ⟨hsignals, input, s₁, found, hinput, htriggers, hcancels⟩

/-- **The requests of a command.**  The first of them is the input for
cancellation, the scale has its source, and so have the ramps. -/
theorem lowerRequests_wired (hapart : c.scaleState ∉ c.action.placeholders) {action : ActionPorts} {handled : Handled}
    (hrun : lowerRequests program c empty = .ok (action, handled) s') :
    Wired program s' ∧ Grows (earlyTargets c) empty s' ∧
      s'.resolver? c.scaleState = some ⟨[c.scaleState], .expression c.scale⟩ ∧
      (∃ first, s'.lowered.get? c.cancelInput = some first ∧ [first] <+: handled.cancels) ∧
      (∀ id ∈ c.action.scalePlaceholders, id ∉ c.action.positions →
        s'.resolver? id = some ⟨c.action.scalePlaceholders, .expression c.effective⟩) ∧
      ∃ t, lowerAction program c.action empty = .ok action t ∧
        t.Grows (c.scaleState :: c.action.scalePlaceholders) s' := by
  obtain ⟨-, cancelInput, s₄, found, hinput, htriggers, hcancels⟩ := lowerRequests_eq_ok hrun
  obtain ⟨s₁, s₂, s₃, haction, hresolver, hramps, hinput⟩ := lowerCancelInput_eq_ok hinput
  obtain ⟨h₁, hgrows₁⟩ := (closed_steps program c.action.positions).lowerAction
    (fun _ hid => hid) _ _ _ haction (wired_empty program)
  have hnone : ∀ id, id ∉ c.action.positions → s₁.resolver? id = none :=
    fun id hid => hgrows₁.resolver?_eq hid
  have hclosed := closed_steps program (c.scaleState :: c.action.scalePlaceholders)
  obtain ⟨h₂, hgrows₂⟩ := hclosed.addResolver _ (by simp) _ _ _ hresolver h₁
  have hsource := resolver?_addResolver
    (hnone _ fun hmem => hapart (List.mem_append_left _ hmem)) List.mem_cons_self hresolver
  -- Ramps get their scale from the command.
  obtain ⟨⟨h₃, hgrows₃⟩, hscales⟩ : (Wired program s₃ ∧
      s₂.Grows (c.scaleState :: c.action.scalePlaceholders) s₃) ∧
      ∀ id ∈ c.action.scalePlaceholders, id ∉ c.action.positions →
        s₃.resolver? id = some ⟨c.action.scalePlaceholders, .expression c.effective⟩ := by
    rcases hramps with ⟨hempty, rfl⟩ | hramps
    · exact ⟨⟨h₂, Grows.refl _⟩, by simp [hempty]⟩
    · refine ⟨hclosed.addResolver _ (fun id hid => List.mem_cons_of_mem _ hid) _ _ _ hramps h₂, ?_⟩
      intro id hid hother
      refine resolver?_addResolver ?_ hid hramps
      have hne : id ∉ [c.scaleState] := by
        rw [List.mem_singleton]
        rintro rfl
        exact hapart (List.mem_append_right _ hid)
      rw [((steps_addResolver (by simp) hresolver h₁).2).resolver?_eq hne, hnone id hother]
  obtain ⟨⟨h₄, hgrows₄⟩, hentry⟩ : (Wired program s₄ ∧
      s₃.Grows (c.scaleState :: c.action.scalePlaceholders) s₄) ∧ _ := h₃.lower hinput
  obtain ⟨h₅, hgrows₅⟩ := hclosed.lowerTriggers _ _ _ _ _ htriggers h₄
  have hend := hgrows₄.trans hgrows₅
  have hlater := hgrows₂.trans (hgrows₃.trans hend)
  have hearly : ∀ id ∈ c.action.positions, id ∈ earlyTargets c := fun id hid =>
    List.mem_cons_of_mem _ (List.mem_append_left _ hid)
  have hlate : ∀ id ∈ c.scaleState :: c.action.scalePlaceholders, id ∈ earlyTargets c := by
    intro id hid
    rcases List.mem_cons.mp hid with rfl | hid
    · exact List.mem_cons_self
    · exact List.mem_cons_of_mem _ (List.mem_append_right _ hid)
  exact ⟨h₅, (hgrows₁.mono hearly).trans (hlater.mono hlate),
    (hgrows₃.trans hend).resolver? hsource,
    ⟨cancelInput, hgrows₅.lowered hentry, ⟨_, hcancels.symm⟩⟩,
    fun id hid hother => hend.resolver? (hscales id hid hother), s₁, haction, hlater⟩

/-- The disjunction of ports. -/
theorem anyOf_joins (hf : s.fragment.WellFormed) {ports : List PortId} (hne : ports ≠ [])
    {q : PortId} (hrun : anyOf ports s = .ok q s') : s'.fragment.Joins ports q := by
  match ports, hne with
  | [port], _ =>
      obtain ⟨rfl, -⟩ := pure_eq_ok.mp hrun
      exact Or.inl rfl
  | first :: second :: rest, _ =>
      obtain ⟨f, kinds, hadded, rfl⟩ := add_added hf hrun
      exact Or.inr ⟨_, hadded.makes⟩

/-! ### What a command leaves behind -/

/-- What a compiled command leaves behind: the scale has a port, and the two
placeholders of its loop have their sources. -/
structure Cancels (c : Command α) (requests : List PortId)
    (q cancel : PortId) (s : Session α) : Prop where
  scale : s.lowered.get? c.scale = some q
  scaleSource : s.resolver? c.scaleState = some ⟨[c.scaleState], .expression c.scale⟩
  cancelSource : s.resolver? c.cancel = some ⟨[c.cancel], .port cancel⟩
  joins : s.fragment.Joins requests cancel
  input : ∃ first, s.lowered.get? c.cancelInput = some first ∧ [first] <+: requests

theorem Cancels.grow {requests : List PortId} {q cancel : PortId} {targets : List ExprId}
    (h : Cancels c requests q cancel s) (hs : s.Grows targets s') :
    Cancels c requests q cancel s' := by
  obtain ⟨first, hfirst, hprefix⟩ := h.input
  exact ⟨hs.lowered h.scale, hs.resolver? h.scaleSource, hs.resolver? h.cancelSource,
    h.joins.extend hs.fragment, first, hs.lowered hfirst, hprefix⟩

/-- What a compiled command leaves behind beside the loop: ports for the
effective override and for being cancelled. -/
structure Serves (c : Command α) (requests : List PortId) (ports : CommandPorts)
    (s : Session α) : Prop extends Cancels c requests ports.scale ports.cancel s where
  still : s.constants.get? (Value.double 0 : Value α).canonical = some ports.still
  stopped : s.fragment.Applies ports.stopped (.compare .lessEq) [ports.scale, ports.still]
  cancelled : s.fragment.Applies ports.cancelled .allOf [ports.cancel, ports.stopped]
  effective : s.lowered.get? c.effective = some ports.effective

theorem Serves.grow {requests : List PortId} {ports : CommandPorts} {targets : List ExprId}
    (h : Serves c requests ports s) (hs : s.Grows targets s') : Serves c requests ports s' := by
  obtain ⟨_, hstopped⟩ := h.stopped
  obtain ⟨_, hcancelled⟩ := h.cancelled
  exact ⟨h.toCancels.grow hs, hs.constants h.still, ⟨_, hstopped.extend hs.fragment⟩,
    ⟨_, hcancelled.extend hs.fragment⟩, hs.lowered h.effective⟩

/-- **Lowering a command** leaves the loop of its scale and its ports. -/
theorem lowerCommand_serves
    (hapart : c.cancel ≠ c.scaleState ∧ c.cancel ∉ c.action.placeholders ∧
      c.scaleState ∉ c.action.placeholders) {result : ActionPorts}
    (hrun : lowerCommand program c empty = .ok result s') :
    ∃ action handled t ports, lowerRequests program c empty = .ok (action, handled) t ∧
      (Wired program s' ∧ t.Grows [c.cancel] s') ∧ Serves c handled.cancels ports s' ∧
      result.outputs = action.outputs.insert c.overrideOutputName ports.effective ∧
      result.signals = handled.signals.register (.state .cancelled) ports.cancelled := by
  rw [lowerCommand_eq] at hrun
  obtain ⟨⟨action, handled⟩, s₁, hrequests, hafter⟩ := bind_eq_ok.mp hrun
  obtain ⟨h₁, hgrows₁, hsource, ⟨first, hfirst, hprefix⟩, -⟩ :=
    lowerRequests_wired hapart.2.2 hrequests
  have hnone : s₁.resolver? c.cancel = none := by
    refine hgrows₁.resolver?_eq ?_
    simp [earlyTargets, hapart]
  obtain ⟨ports, s₂, s₃, s₄, s₅, s₆, s₇, s₈, hany, hresolver, hscale, hstill, hstopped, hcancelled,
    heffective, hstore, rfl⟩ := lowerCancellation_eq_ok hafter
  have hclosed := closed_steps program [c.cancel]
  obtain ⟨h₂, hgrows₂⟩ := hclosed.anyOf _ _ _ _ hany h₁
  have hjoins : s₂.fragment.Joins handled.cancels ports.cancel := by
    refine anyOf_joins h₁.wellFormed ?_ hany
    intro heq
    simp [heq] at hprefix
  have hcancel : s₃.resolver? c.cancel = some ⟨[c.cancel], .port ports.cancel⟩ := by
    refine resolver?_addResolver ?_ List.mem_cons_self hresolver
    have hquiet : s₁.Grows [] s₂ := ((closed_steps program []).anyOf _ _ _ _ hany h₁).2
    rw [hquiet.resolver?_eq List.not_mem_nil, hnone]
  obtain ⟨h₃, hgrows₃⟩ := hclosed.addResolver _ (fun _ hid => hid) _ _ _ hresolver h₂
  obtain ⟨⟨h₄, hgrows₄⟩, hentry⟩ : (Wired program s₄ ∧ s₃.Grows [c.cancel] s₄) ∧ _ :=
    h₃.lower hscale
  have hcancels : Cancels c handled.cancels ports.scale ports.cancel s₄ := by
    have hsource' := hgrows₄.resolver? (hgrows₃.resolver? (hgrows₂.resolver? hsource))
    exact ⟨hentry, hsource', hgrows₄.resolver? hcancel,
      hjoins.extend (hgrows₃.fragment.trans hgrows₄.fragment), first,
      hgrows₄.lowered (hgrows₃.lowered (hgrows₂.lowered hfirst)), hprefix⟩
  obtain ⟨h₅, hgrows₅⟩ := hclosed.constPort _ _ _ _ hstill h₄
  have hstillAt := constPort_entered h₄.wellFormed hstill
  obtain ⟨h₆, hgrows₆⟩ := hclosed.add _ _ _ _ _ _ hstopped h₅
  obtain ⟨_, _, hstoppedAt, rfl⟩ := add_added h₅.wellFormed hstopped
  obtain ⟨h₇, hgrows₇⟩ := hclosed.allOf _ _ _ _ hcancelled h₆
  obtain ⟨_, _, hcancelledAt, rfl⟩ := add_added h₆.wellFormed hcancelled
  obtain ⟨⟨h₈, hgrows₈⟩, heffectiveAt⟩ : (Wired program s₈ ∧ Grows [c.cancel] _ s₈) ∧ _ :=
    h₇.lower heffective
  obtain ⟨h₉, hgrows₉⟩ := hclosed.storeEach _ _ _ _ hstore h₈
  have hgrows₆₈ := hgrows₇.trans hgrows₈
  have hgrows₄₈ := hgrows₅.trans (hgrows₆.trans hgrows₆₈)
  have hserves : Serves c handled.cancels ports s₈ :=
    ⟨hcancels.grow hgrows₄₈,
      hgrows₆₈.constants (hgrows₆.constants hstillAt),
      ⟨_, hstoppedAt.makes.extend hgrows₆₈.fragment⟩, ⟨_, hcancelledAt.makes.extend hgrows₈.fragment⟩,
      heffectiveAt⟩
  have hgrows := hgrows₂.trans (hgrows₃.trans (hgrows₄.trans (hgrows₄₈.trans hgrows₉)))
  exact ⟨action, handled, s₁, ports, hrequests, ⟨h₉, hgrows⟩, hserves.grow hgrows₉, rfl, rfl⟩

/-! ### Compiled commands -/

/-- What the network of a command announces: the channels of its action, its
override, and that it is completed or cancelled. -/
structure Announces (c : Command α) (action : ActionPorts) (ports : CommandPorts)
    (net : CompiledNet α) : Prop where
  override : net.fragment.output? c.overrideOutputName = some ports.effective
  /-- The output for the override may have the name of a channel. -/
  channels : ∀ {name : String} {q : PortId}, name ≠ c.overrideOutputName →
    action.outputs.get? name = some q → net.fragment.output? name = some q
  cancelled : net.statePort? .cancelled = some ports.cancelled
  completed : ∀ {q : PortId}, action.signals.statePorts .completed = [q] →
    net.statePort? .completed = some q

/-- **Compiling a command** leaves the loop of its scale, closes it, and
announces its ports. -/
theorem compile_serves (hp : program.pool.WellFormed)
    (hapart : c.cancel ≠ c.scaleState ∧ c.cancel ∉ c.action.placeholders ∧
      c.scaleState ∉ c.action.placeholders) {request : Request α}
    (htarget : request.target = .command c) {net : CompiledNet α}
    (hrun : Session.compile program request empty = .ok net s') :
    ∃ action handled t ports, lowerRequests program c empty = .ok (action, handled) t ∧
      (Wired program s' ∧ t.Grows [c.cancel] s') ∧ Serves c handled.cancels ports s' ∧
      s'.fragment = net.fragment ∧ Resolved program s' ∧ Announces c action ports net := by
  obtain ⟨target, s₁, hlower, -⟩ := bind_eq_ok.mp hrun
  have hbranch := hlower
  rw [htarget] at hbranch
  obtain ⟨result, t₁, hcommand, hpure⟩ := bind_eq_ok.mp hbranch
  obtain ⟨rfl, rfl⟩ := pure_eq_ok.mp hpure
  obtain ⟨action, handled, t, ports, hrequests, ⟨h₁, hgrows₁⟩, hserves, houtputs, hsignals⟩ :=
    lowerCommand_serves hapart hcommand
  obtain ⟨⟨hwired, hgrows⟩, hfragment, hclosing, hnames, hstates⟩ :=
    compile_announces hp hlower h₁ ((closed_registers Registry.grown_alike program
      (c.cancel :: earlyTargets c)).lowerCommand (fun _ hid => hid) _ _ _ hcommand) hrun
  obtain ⟨hinherited, -⟩ := lowerRequests_eq_ok hrequests
  obtain ⟨-, -, -, -, -, _, haction, -⟩ := lowerRequests_wired hapart.2.2 hrequests
  refine ⟨action, handled, t, ports, hrequests, ⟨hwired, hgrows₁.trans hgrows⟩,
    hserves.grow hgrows, hfragment, hclosing, ?_⟩
  exact {
    override := hnames (by rw [houtputs, Table.get?_insert_self])
    channels := fun hname hq => hnames (by rw [houtputs, Table.get?_insert_of_ne _ _ hname, hq])
    cancelled := by
      refine hstates (by simp) ?_
      rw [hsignals]
      refine Registry.statePorts_register_first ?_
      rw [hinherited, lowerAction_statePorts haction (by simp) (by simp)]
    completed := by
      intro q hq
      refine hstates (by simp) ?_
      rw [hsignals, Registry.statePorts_register_of_ne (by simp), hinherited, hq] }

/-! ### The loop of the scale -/

/-- The port of a node applies its primitive. -/
theorem Wired.applies_node (h : Wired program s) {id : ExprId} {q : PortId} {n : Node α}
    {primitive : Primitive α} (hq : s.lowered.get? id = some q)
    (hn : program.pool.get? id = some n) (hkeeps : program.rules.Keeps n.form)
    (hprimitive : n.form.primitive? program.parameters = some primitive) :
    ∃ sources, s.fragment.Applies q primitive sources ∧
      List.Forall₂ (fun d source => s.lowered.get? d = some source) n.form.dependencies
        sources := by
  obtain ⟨n', hn', hshows⟩ := h.entries hq
  rw [hn] at hn'
  cases hn'
  cases hshows with
  | ruled hother => exact absurd hkeeps hother
  | block hform hport hsources =>
      rw [hprimitive] at hform
      cases hform
      exact ⟨_, ⟨_, hport⟩, hsources⟩
  | constant hform => simp [hform, Form.primitive?] at hprimitive
  | placeholder hform => simp [hform, Form.primitive?] at hprimitive
  | given hform =>
      rcases hform with ⟨name, hform⟩ | ⟨source, target, hform⟩
      · simp [hform, Form.primitive?] at hprimitive
      · simp [hform, Form.primitive?] at hprimitive

/-- The port of an expression applies the primitive of a form that sharing
keeps. -/
theorem Wired.applies_kept (h : Wired program s) {id : ExprId} {q : PortId} {form : Form α}
    {primitive : Primitive α} (hkeeps : program.rules.Keeps form)
    (hq : s.lowered.get? id = some q) (hform : program.pool.Holds id form)
    (hkept : form.isKept = true)
    (hprimitive : form.primitive? program.parameters = some primitive) :
    ∃ sources, s.fragment.Applies q primitive sources ∧
      List.Forall₂ (fun d source => s.lowered.get? d = some source) form.dependencies sources := by
  obtain ⟨n, hn, hcanonical⟩ := hform
  obtain rfl := Form.eq_of_isKept hkept hcanonical
  exact h.applies_node hq hn hkeeps hprimitive

/-- The port of a delay applies a delay, up to sharing. -/
theorem Wired.applies_pre (h : Wired program s) {id x : ExprId} {q : PortId} {v : Value α}
    (hkeeps : program.rules.Keeps (.pre x v))
    (hq : s.lowered.get? id = some q) (hform : program.pool.Holds id (.pre x v)) :
    ∃ w source, w.canonical = v.canonical ∧ s.fragment.Applies q (.pre w) [source] ∧
      s.lowered.get? x = some source := by
  obtain ⟨n, hn, hcanonical⟩ := hform
  obtain ⟨w, hw, hshared⟩ := Form.eq_pre_of_canonical hcanonical
  obtain ⟨sources, happlies, hsources⟩ := h.applies_node hq hn (hkeeps.canonical hcanonical) (by rw [hw]; rfl)
  rw [hw] at hsources
  obtain ⟨source, _, hsource, hnil, rfl⟩ := List.forall₂_cons_left_iff.mp hsources
  cases hnil
  exact ⟨w, source, hshared, happlies, hsource⟩

/-- The port of a literal applies a constant, up to sharing. -/
theorem Wired.applies_literal (h : Wired program s) {id : ExprId} {q : PortId} {v : Value α}
    (hkeeps : program.rules.Keeps (.constant v))
    (hq : s.lowered.get? id = some q) (hform : program.pool.Holds id (.constant v)) :
    ∃ w, w.canonical = v.canonical ∧ s.fragment.Applies q (.constant w) [] := by
  obtain ⟨n, hn, hcanonical⟩ := hform
  obtain ⟨n', hn', hshows⟩ := h.entries hq
  rw [hn] at hn'
  cases hn'
  have hkeeps' := hkeeps.canonical hcanonical
  cases hform : n.form with
  | constant u =>
      rw [hform] at hcanonical
      cases hshows with
      | ruled hother => exact absurd hkeeps' hother
      | constant hform' hport =>
          rw [hform] at hform'
          cases hform'
          obtain ⟨w, hw, hmakes⟩ := h.constants hport
          exact ⟨w, hw.trans (Form.constant.inj hcanonical), _, hmakes⟩
      | block hform' => simp [hform, Form.primitive?] at hform'
      | placeholder hform' => simp [hform] at hform'
      | given hform' => simp [hform] at hform'
  | _ => simp [hform, Form.canonical] at hcanonical

/-- The port of a placeholder copies its source. -/
theorem Resolved.applies (h : Resolved program s) {id : ExprId} {q : PortId} {number : Nat}
    {label : String} (hkeeps : program.rules.Keeps (.placeholder number label))
    (hq : s.lowered.get? id = some q)
    (hform : program.pool.Holds id (.placeholder number label)) {r : Resolver α}
    (hr : s.resolver? id = some r) :
    ∃ source, s.SourceAt source r.source ∧ s.fragment.Applies q .identity [source] := by
  obtain ⟨n, hn, hcanonical⟩ := hform
  obtain ⟨r', source, hr', hsource, hmakes⟩ := h hq hn (hkeeps.canonical hcanonical)
    (Form.eq_placeholder_of_canonical hcanonical)
  rw [hr] at hr'
  cases hr'
  exact ⟨source, hsource, _, hmakes⟩

/-- **The network of a command holds the loop of its scale**, with the
constants that it was written down with up to sharing. -/
theorem Cancels.loops (hrules : program.rules.KeepAll Form.inScale) (h : Wired program s)
    (hresolved : Resolved program s) {parts : ScaleParts} (hscaled : c.Scaled program.pool parts) {requests : List PortId}
    {q cancel : PortId} (hcancels : Cancels c requests q cancel s) :
    ∃ k ports, k.Shares c.deceleration ∧ s.fragment.Scales k q cancel ports := by
  obtain ⟨_, hscale, _ | ⟨hchangeAt, _ | ⟨hstoppedAt, _ | ⟨hfullAt, _ | _⟩⟩⟩⟩ :=
    h.applies_kept (hrules rfl) hcancels.scale hscaled.scale rfl rfl
  obtain ⟨_, hchange, _ | ⟨hpreviousAt, _ | ⟨hstepAt, _ | _⟩⟩⟩ :=
    h.applies_kept (hrules rfl) hchangeAt hscaled.change rfl rfl
  obtain ⟨_, hstep, _ | ⟨hrequestedAt, _ | ⟨hrateAt, _ | ⟨hstoppedAt', _ | _⟩⟩⟩⟩ :=
    h.applies_kept (hrules rfl) hstepAt hscaled.step rfl rfl
  rw [hstoppedAt] at hstoppedAt'
  cases hstoppedAt'
  obtain ⟨v, state, hv, hprevious, hstateAt⟩ := h.applies_pre (hrules rfl) hpreviousAt hscaled.previous
  obtain ⟨initial, rfl, hinitial⟩ := Value.eq_double hv
  obtain ⟨w, request, hw, hrequested, hrequestAt⟩ := h.applies_pre (hrules rfl) hrequestedAt hscaled.requested
  obtain rfl := Value.eq_boolean hw
  -- The two placeholders copy their sources.
  obtain ⟨number, label, hscaleState⟩ := hscaled.stateOpen
  obtain ⟨source, hsource, hstate⟩ := hresolved.applies (hrules rfl) hstateAt hscaleState hcancels.scaleSource
  obtain rfl : q = source := Option.some.inj (hcancels.scale.symm.trans hsource)
  obtain ⟨number', label', hcancel⟩ := hscaled.cancelOpen
  obtain ⟨source, rfl, hrequest⟩ := hresolved.applies (hrules rfl) hrequestAt hcancel hcancels.cancelSource
  obtain ⟨_, hu, hstopped⟩ := h.applies_literal (hrules rfl) hstoppedAt hscaled.stopped
  obtain ⟨stopped, rfl, hzero⟩ := Value.eq_double hu
  obtain ⟨_, hu, hfull⟩ := h.applies_literal (hrules rfl) hfullAt hscaled.full
  obtain ⟨full, rfl, hone⟩ := Value.eq_double hu
  rcases hscaled.rate with hdiv | ⟨heq, u, hu, hisOne⟩
  · obtain ⟨_, hrate, _ | ⟨hperiodAt, _ | ⟨hsecondsAt, _ | _⟩⟩⟩ :=
      h.applies_kept (hrules rfl) hrateAt hdiv rfl rfl
    obtain ⟨_, hperiod, _ | _⟩ := h.applies_kept (hrules rfl) hperiodAt hscaled.period rfl rfl
    obtain ⟨_, hu, hseconds⟩ := h.applies_literal (hrules rfl) hsecondsAt hscaled.seconds
    obtain ⟨seconds, rfl, hshared⟩ := Value.eq_double hu
    exact ⟨⟨initial, seconds, stopped, full⟩, ⟨_, _, _, _, _, _, _, _, _, _⟩,
      ⟨hinitial, hshared, hzero, hone⟩, hscale, hchange, hprevious, hstate, hstep, hrequested,
      hrequest, Or.inl ⟨_, hrate, hseconds⟩, hperiod, hstopped, hfull⟩
  · rw [heq] at hrateAt
    obtain ⟨_, hperiod, _ | _⟩ := h.applies_kept (hrules rfl) hrateAt hscaled.period rfl rfl
    obtain ⟨seconds, rfl, hshared⟩ := Value.eq_double hu
    exact ⟨⟨initial, seconds, stopped, full⟩, ⟨_, _, _, _, _, _, _, _, _, _⟩,
      ⟨hinitial, hshared, hzero, hone⟩, hscale, hchange, hprevious, hstate, hstep, hrequested,
      hrequest, Or.inr ⟨rfl, hisOne⟩, hperiod, hstopped, hfull⟩

end Session

end SignalNet
