import SignalNet.Proofs.Compile.Lookups
import SignalNet.Proofs.Compile.Override

/-!
# Milestones

A state expression can be given a name, and is then a milestone.  The milestone
is registered for the network, which has a port for it, while a trigger looks
for states among those of the action.  An action knows no milestones
(`Session.lowerAction_statePorts`), so a handler that waits for one is dropped.

* `Session.compile_states` says which states have a port in a network, and what
  the port carries.
* `Command.compile_withoutWaiting`: a command compiles to the same network as
  without the handlers that wait for milestones.
* `Compiler.milestones_trigger_nothing` puts this together, and
  `Compiler.arrival_triggers_nothing` is a command whose milestone holds all
  the time while its handler does nothing.
-/

namespace SignalNet

open Computing Lowering

variable {α : Type} [Scalar α]

/-! ### States of a network -/

/-- A disjunction is true if one of its ports is. -/
theorem Simulator.Cycle.joins_true {s s' : Simulator α} (h : Cycle s s')
    (hf : s.fragment.WellFormed) {ports : List PortId} {q : PortId}
    (hq : s.fragment.Joins ports q) {r : PortId} (hr : r ∈ ports)
    (htrue : s'.value? r = some (.boolean true)) : s'.value? q = some (.boolean true) := by
  cases h.disjoins hf hq with
  | only =>
      obtain rfl := List.mem_singleton.mp hr
      exact htrue
  | several bs hports hvalue =>
      obtain ⟨b, hb, hcarried⟩ := forall₂_exists_of_mem hports hr
      rw [htrue] at hcarried
      cases hcarried
      rw [hvalue, List.any_eq_true.mpr ⟨true, hb, rfl⟩]

namespace Session

variable {program : Program α} {s s' : Session α} {targets : List ExprId}

omit [Scalar α] in
theorem registers_register (signal : Signal) (port : PortId) :
    Leaves (Registers (α := α) Registry.Includes) (register signal port) := by
  intro s s' u hrun
  obtain ⟨f, hcall, rfl⟩ := wire_eq_ok.mp hrun
  obtain rfl := Fragment.register_eq_ok hcall
  exact fun h => ⟨h.withSignals _, Registry.includes_register _ _ _⟩

/-- **The states of a network.**  Whatever has been registered has a port, which
carries the disjunction of all ports that are registered for the state. -/
theorem compile_states (hp : program.pool.WellFormed) {request : Request α} {net : CompiledNet α}
    {target : PortId ⊕ ActionPorts} {t : Session α}
    (hlower : lowerTarget program request.target empty = .ok target t) (ht : Wired program t)
    (hrun : Session.compile program request empty = .ok net s') :
    net.fragment.WellFormed ∧ ∃ registry, t.fragment.signals.Includes registry ∧
      ∀ state, registry.statePorts state ≠ [] → ∃ q, net.statePort? state = some q ∧
        net.fragment.Joins (registry.statePorts state) q := by
  obtain ⟨hwell, hgathered, -⟩ := compile_gathers hp hrun
  obtain ⟨_, _, s₂, s₃, s₄, s₅, htarget, hpublish, hobserve, hstates, hexceptions, hfinish, -⟩ :=
    compile_stages hrun
  rw [hlower] at htarget
  cases htarget
  have hregisters := closed_registers (α := α) Registry.grown_includes program []
  have hincludes := (hregisters.trans (hregisters.publish registers_register _ _ _ _ hpublish)
    (hregisters.observeEach _ _ _ _ _ hobserve) ht.wellFormed).2
  have hsignals : net.fragment.signals = s₃.fragment.signals := by
    obtain ⟨-, hfragment⟩ := finish_traced hfinish
    rw [← hfragment]
    exact (finishing_sameSignals program).gather hstates hexceptions hfinish
  rw [hsignals] at hgathered
  refine ⟨hwell, _, hincludes, ?_⟩
  intro state hstate
  obtain ⟨q, hq⟩ := List.exists_mem_of_ne_nil _ hstate
  obtain ⟨p, hp⟩ :=
    (hgathered.keys state).mpr (Registry.mem_states (Registry.mem_statePorts.mp hq))
  exact ⟨p, hp, hgathered.joins hp⟩

/-! ### Triggers -/

/-- A name is registered with the port of what it names. -/
theorem lowerState_named {action : ActionPorts} {name : String} {inner : StateExpr α} {q : PortId}
    (hrun : lowerState program action (.named name inner) s = .ok (some q) s') :
    (.state (.milestone name), q) ∈ s'.fragment.signals.entries := by
  rw [lowerState] at hrun
  obtain ⟨found, s₁, -, hafter⟩ := bind_eq_ok.mp hrun
  cases found with
  | none => cases (pure_eq_ok.mp hafter).1
  | some port =>
      obtain ⟨_, s₂, hregister, hafter⟩ := bind_eq_ok.mp hafter
      obtain ⟨f, hcall, rfl⟩ := wire_eq_ok.mp hregister
      obtain rfl := Fragment.register_eq_ok hcall
      obtain ⟨heq, rfl⟩ := pure_eq_ok.mp hafter
      cases heq
      exact Registry.mem_register _ _ _

/-- **A milestone is no state of an action**, so waiting for it comes to
nothing. -/
theorem lowerState_milestone {a : Action α} {action : ActionPorts}
    (haction : lowerAction program a s = .ok action s') (name : String) :
    lowerState program action (.of (.milestone name)) = pure none := by
  rw [lowerState, lowerAction_statePorts haction (by simp) (by simp)]
  rfl

/-- Every trigger is lowered by itself, between those before it and those after
it. -/
theorem Closed.lowerTriggers_getElem? {R : Session α → Session α → Prop}
    (h : Closed program targets R) {action : ActionPorts} {handlers : List (Handler α)}
    {found : List (Option PortId)}
    (hrun : Session.lowerTriggers program action handlers s = .ok found s') {i : Nat}
    {handler : Handler α} (hi : handlers[i]? = some handler) :
    ∃ r t t', found[i]? = some r ∧
      Session.lowerState program action handler.trigger t = .ok r t' ∧ R s t ∧ R t' s' := by
  induction handlers generalizing s i found with
  | nil => cases hi
  | cons first rest ih =>
      obtain ⟨r, s₁, hfirst, hafter⟩ := bind_eq_ok.mp hrun
      obtain ⟨others, s₂, hrest, hpure⟩ := bind_eq_ok.mp hafter
      obtain ⟨rfl, rfl⟩ := pure_eq_ok.mp hpure
      cases i with
      | zero =>
          cases hi
          exact ⟨r, s, s₁, rfl, hfirst, h.refl s, h.lowerTriggers action rest _ _ _ hrest⟩
      | succ i =>
          obtain ⟨r', t, t', hr', hlower, hbefore, hlater⟩ := ih hrest hi
          exact ⟨r', t, t', hr', hlower,
            h.trans (h.lowerState action first.trigger _ _ _ hfirst) hbefore, hlater⟩

end Session

/-! ### Handlers that wait for milestones -/

omit [Scalar α] in
/-- A trigger that is a milestone by itself. -/
def StateExpr.isMilestone : StateExpr α → Bool
  | .of (.milestone _) => true
  | _ => false

omit [Scalar α] in
/-- A command without the handlers that wait for milestones. -/
def Command.withoutWaiting (c : Command α) : Command α :=
  { c with handlers := c.handlers.filter fun handler => !handler.trigger.isMilestone }

namespace Session

variable {program : Program α} {s s' : Session α}

/-- Handlers that wait for milestones add nothing. -/
theorem lowerHandlers_filter {a : Action α} {action : ActionPorts}
    (haction : lowerAction program a s = .ok action s') (handlers : List (Handler α))
    (done : Handled) :
    lowerHandlers program action (handlers.filter fun handler => !handler.trigger.isMilestone)
      done = lowerHandlers program action handlers done := by
  induction handlers generalizing done with
  | nil => rfl
  | cons handler rest ih =>
      cases hwaits : handler.trigger.isMilestone with
      | false =>
          rw [List.filter_cons_of_pos (by simp [hwaits]), lowerHandlers, lowerHandlers]
          simp only [ih]
      | true =>
          obtain ⟨name, hname⟩ : ∃ name, handler.trigger = .of (.milestone name) := by
            obtain ⟨trigger, reaction⟩ := handler
            match trigger, hwaits with
            | .of (.milestone name), _ => exact ⟨name, rfl⟩
          rw [List.filter_cons_of_neg (by simp [hwaits]), ih, lowerHandlers, hname,
            lowerState_milestone haction, pure_bind]

/-- **Handlers that wait for milestones** are not in the network. -/
theorem lowerCommand_withoutWaiting (c : Command α) :
    lowerCommand program c.withoutWaiting = lowerCommand program c := by
  funext s
  rw [lowerCommand, lowerCommand]
  refine bind_congr_ok fun action s₁ haction => ?_
  simp only [Command.withoutWaiting, lowerHandlers_filter haction]
  rfl

end Session

/-- A command compiles to the same network as without the handlers that wait
for milestones. -/
theorem Command.compile_withoutWaiting (compiler : Compiler α) (pool : Pool α) (host : Host α)
    {request : Request α} {c : Command α} (htarget : request.target = .command c) :
    compiler.compile pool host { request with target := .command c.withoutWaiting } =
      compiler.compile pool host request := by
  have hcompile : ∀ program : Program α,
      Session.compile program { request with target := .command c.withoutWaiting } =
        Session.compile program request := by
    intro program
    simp only [Session.compile, htarget, Session.lowerTarget, Session.lowerCommand_withoutWaiting]
  simp only [Compiler.compile, hcompile]

open Simulator in
/-- **Milestones trigger nothing.**  Let a command that was built by calls be
compiled with the rules of the library.

* A trigger that waits for a milestone is lowered to no port, and the network is
  that of the command without such handlers.
* All the same a name that an earlier or a later trigger gives to a state has a
  port in the network, which is true in all cycles in which the state holds. -/
theorem Compiler.milestones_trigger_nothing {settings : Settings α} {pool : Pool α}
    (hpool : pool.Reachable) {host : Host α} {c : Command α} (hc : c.Built pool)
    {request : Request α} (htarget : request.target = .command c) {net : CompiledNet α}
    (hnet : Compiler.compile ⟨.standard, settings⟩ pool host request = .ok net) :
    let program : Program α := ⟨pool, .standard, request.parameters, settings, host⟩
    Compiler.compile ⟨.standard, settings⟩ pool host
        { request with target := .command c.withoutWaiting } = .ok net ∧
    ∃ session action input inputDone found triggersDone,
      Session.compile program request .empty = .ok net session ∧
      Session.lowerCancelInput program c .empty = .ok (action, input) inputDone ∧
      Session.lowerTriggers program action c.handlers inputDone = .ok found triggersDone ∧
      (∀ (i : Nat) (handler : Handler α) (name : String), c.handlers[i]? = some handler →
        handler.trigger = .of (.milestone name) → found[i]? = some none) ∧
      ∀ (i : Nat) (handler : Handler α) (name : String) (inner : StateExpr α) (q : PortId),
        c.handlers[i]? = some handler →
        handler.trigger = .named name inner → found[i]? = some (some q) →
        ∃ p, net.statePort? (.milestone name) = some p ∧
          ∀ (period : α) (x : Nat → Stimulus α) (n : Nat) (s₀ s : Simulator α),
            start net.fragment period = .ok s₀ → drive x (n + 1) s₀ = .ok s →
            s.value? q = some (.boolean true) → s.value? p = some (.boolean true) := by
  intro program
  obtain ⟨session, hsession⟩ := compile_eq_ok hnet
  obtain ⟨parts, hscaled⟩ := hc.scaled
  obtain ⟨target, t, hlower, -⟩ := bind_eq_ok.mp hsession
  have hbranch := hlower
  rw [htarget] at hbranch
  obtain ⟨result, t₁, hcommand, hpure⟩ := bind_eq_ok.mp hbranch
  obtain ⟨rfl, rfl⟩ := pure_eq_ok.mp hpure
  obtain ⟨-, -, -, -, -, ⟨hwired, -⟩, -⟩ :=
    Session.lowerCommand_serves hscaled.apart hcommand
  rw [Session.lowerCommand_eq] at hcommand
  obtain ⟨⟨action, handled⟩, s₁, hrequests, hcancellation⟩ := bind_eq_ok.mp hcommand
  obtain ⟨-, input, inputDone, found, hinput, htriggers, -⟩ :=
    Session.lowerRequests_eq_ok hrequests
  obtain ⟨-, -, -, -, -, _, haction, -⟩ :=
    Session.lowerRequests_wired hscaled.apart.2.2 hrequests
  obtain ⟨hwell, registry, hincludes, hstates⟩ :=
    Session.compile_states hpool.wellFormed hlower hwired hsession
  have hclosed := Session.closed_registers (α := α) Registry.grown_includes program
    (c.cancel :: Session.earlyTargets c)
  refine ⟨(Command.compile_withoutWaiting _ _ _ htarget).trans hnet, session, action, input,
    inputDone, found, s₁, hsession, hinput, htriggers, ?_, ?_⟩
  · intro i handler name hi hname
    obtain ⟨r, t, t', hr, hstate, -⟩ := hclosed.lowerTriggers_getElem? htriggers hi
    rw [hname, Session.lowerState_milestone haction] at hstate
    obtain ⟨rfl, -⟩ := pure_eq_ok.mp hstate
    exact hr
  · intro i handler name inner q hi hname hq
    obtain ⟨r, t, t', hr, hstate, hbefore, hlater⟩ := hclosed.lowerTriggers_getElem? htriggers hi
    rw [hr] at hq
    cases hq
    rw [hname] at hstate
    -- From the trigger on, the name stays registered.
    have hmilestone := Session.lowerState_named hstate
    obtain ⟨hwell₁, -⟩ := hclosed.lowerCancelInput (fun id hid => List.mem_cons_of_mem _ hid) _ _ _
      hinput Fragment.wellFormed_empty
    obtain ⟨hwell₂, -⟩ := hclosed.lowerState _ _ _ _ _ hstate (hbefore hwell₁).1
    have hlast := (hclosed.trans hlater (hclosed.lowerCancellation List.mem_cons_self _ _ _ _ _
      hcancellation) hwell₂).2
    have hq := Registry.mem_statePorts.mpr (hincludes _ (hlast _ hmilestone))
    obtain ⟨p, hp, hjoins⟩ := hstates (.milestone name) (List.ne_nil_of_mem hq)
    refine ⟨p, hp, ?_⟩
    intro period x n s₀ s hstart hdrive htrue
    obtain ⟨_, -, hfragment, -, -, hcycle, -⟩ := drive_last hwell hstart hdrive
    exact hcycle.joins_true (hfragment.symm ▸ hwell) (hfragment.symm ▸ hjoins) hq htrue

/-! ### A command that waits for its own milestone -/

/-- A command that reports its arrival, and is to be cancelled when it has
arrived. -/
def Sample.arrival : Building Float (ExprId × Command Float) := do
  let near ← Pool.input "near" .boolean .global
  let c ← Command.new "go" .global (Action.wait "pause" 100) (some 0.5)
  let c := c.on (.named "arrived" (.condition near)) (.raise (.root "Arrived"))
  return (near, c.on (.of (.milestone "arrived")) .cancel)

theorem Sample.arrival_built {near : ExprId} {c : Command Float} {p : Pool Float}
    (h : Sample.arrival { folding := true } = .ok (near, c) p) : p.Reachable ∧ c.Built p := by
  have hempty : ({ folding := true } : Pool Float).Reachable := ⟨true, [], rfl⟩
  obtain ⟨near', p₁, hnear, h⟩ := bind_eq_ok.mp h
  obtain ⟨-, hp₁⟩ := (Pool.composed_run (.input "near" .boolean .global)).reachable hempty hnear
  obtain ⟨c₂, p₂, hnew, h⟩ := bind_eq_ok.mp h
  obtain ⟨-, hp₂⟩ := (Command.new_composed _ _ _ _).reachable hp₁ hnew
  obtain ⟨hpair, rfl⟩ := pure_eq_ok.mp h
  cases hpair
  have hbuilt : c₂.Built p₂ := .new hp₁ (.wait _ _) hnew
  exact ⟨hp₂, (hbuilt.on _ _).on _ _⟩

/-- The command is near from the start. -/
def Sample.nearby (_ : Nat) : Stimulus Float :=
  { inputs := [("near", .boolean true)] }

/-- What the triggers of the handlers of a command are lowered to. -/
def Sample.triggers (p : Pool α) (c : Command α) : List (Option PortId) :=
  let program : Program α := ⟨p, .standard, {}, .standard, .offline⟩
  match Session.lowerCancelInput program c .empty with
  | .error _ _ => []
  | .ok (action, _) before =>
    match Session.lowerTriggers program action c.handlers before with
    | .error _ _ => []
    | .ok found _ => found

open Simulator in
/-- The command is near for three cycles. -/
theorem Sample.arrival_runs : Sample.commandRuns .standard Sample.arrival 0.125 Sample.nearby 3
    (fun _ c p net _ s₀ s => (decide (c.handlers.length = 2) &&
        decide (c.withoutWaiting.handlers.length = 1)) &&
      (net.statePort? (.milestone "arrived")).any fun q =>
        decide (Sample.triggers p c = [some q, none]) &&
          ((match drive Sample.nearby 1 s₀ with
            | .ok s₁ => s₁.boolean? q == some true
            | .error _ => false) &&
            (s.boolean? q == some true && s.output? "go.override" == some (.double 1)))) =
      true := by
  decide +kernel

/-- Nothing is left of the handler that waits for the arrival. -/
theorem Compiler.arrival_dropped : ∃ near c p net,
    Sample.arrival { folding := true } = .ok (near, c) p ∧ c.handlers.length = 2 ∧
    c.withoutWaiting.handlers.length = 1 ∧ Sample.compilePause p c = .ok net ∧
    Sample.compilePause p c.withoutWaiting = .ok net := by
  obtain ⟨near, c, p, net, s₀, s, hbuild, hnet, -, -, htest⟩ :=
    Sample.commandRuns_eq_true Sample.arrival_runs
  obtain ⟨hp, hc⟩ := Sample.arrival_built hbuild
  obtain ⟨hdropped, session, _, _, _, _, _, hsession, -⟩ :=
    Compiler.milestones_trigger_nothing hp hc rfl hnet
  obtain ⟨hlengths, -⟩ := Bool.and_eq_true_iff.mp (htest session hsession)
  obtain ⟨htwo, hone⟩ := Bool.and_eq_true_iff.mp hlengths
  exact ⟨near, c, p, net, hbuild, of_decide_eq_true htwo, of_decide_eq_true hone, hnet, hdropped⟩

open Simulator in
/-- **A command does not see its own milestone.**  The network has a port for
the arrival, which is true from the first cycle on, but the command is not
cancelled and runs on at full speed. -/
theorem Compiler.arrival_triggers_nothing : ∃ near c p net q s₀ s₁ s₃,
    Sample.arrival { folding := true } = .ok (near, c) p ∧ Sample.compilePause p c = .ok net ∧
    net.statePort? (.milestone "arrived") = some q ∧ Sample.triggers p c = [some q, none] ∧
    Simulator.start net.fragment 0.125 = .ok s₀ ∧
    drive Sample.nearby 1 s₀ = .ok s₁ ∧ s₁.boolean? q = some true ∧
    drive Sample.nearby 3 s₀ = .ok s₃ ∧ s₃.boolean? q = some true ∧
    s₃.output? "go.override" = some (.double 1) := by
  obtain ⟨near, c, p, net, s₀, s₃, hbuild, hnet, hstart, hdrive, htest⟩ :=
    Sample.commandRuns_eq_true Sample.arrival_runs
  obtain ⟨s₂, hsecond, -⟩ := drive_succ_eq_ok.mp hdrive
  obtain ⟨s₁, hfirst, -⟩ := drive_succ_eq_ok.mp hsecond
  obtain ⟨session, hsession⟩ := compile_eq_ok hnet
  obtain ⟨-, htest⟩ := Bool.and_eq_true_iff.mp (htest session hsession)
  cases hq : net.statePort? (.milestone "arrived") with
  | none => simp [hq] at htest
  | some q =>
      simp only [hq, Option.any_some, hfirst, Bool.and_eq_true, decide_eq_true_eq,
        beq_iff_eq] at htest
      obtain ⟨htriggers, htrue₁, htrue₃, hspeed⟩ := htest
      exact ⟨near, c, p, net, q, s₀, s₁, s₃, hbuild, hnet, hq, htriggers, hstart, hfirst, htrue₁,
        hdrive, htrue₃, hspeed⟩

end SignalNet
