import SignalNet.Proofs.Compile.Approach
import SignalNet.Proofs.Compile.Lookups

/-!
# The channels of a command

The outputs of a command are the channels of its action and the effective
override.  They are named when the command is published, and keep their names:
a name that is taken is not given to another port.

The override is entered among the channels before they are published, and there
the last entry wins.  A channel with the name of the override is lost, so
`Compiler.command_channels` speaks of the others, and
`Compiler.override_hides_channel` is a command that loses its only one.
-/

namespace SignalNet

open Computing Lowering

namespace Session

variable {α : Type} [Scalar α] {program : Program α} {s s' : Session α}

/-! ### Commands -/

/-- The outputs of a command are the channels of its action and, in the place of
any of that name, the effective override. -/
theorem lowerCommand_outputs {c : Command α} {ports : ActionPorts}
    (hrun : lowerCommand program c s = .ok ports s') :
    ∃ action s₁ effective, lowerAction program c.action s = .ok action s₁ ∧
      ports.outputs = action.outputs.insert c.overrideOutputName effective ∧
      s'.lowered.get? c.effective = some effective := by
  obtain ⟨action, input, handled, s₁, s₂, hinput, -, hcancellation⟩ := lowerCommand_eq_ok hrun
  obtain ⟨t, _, _, haction, -, -, -⟩ := lowerCancelInput_eq_ok hinput
  obtain ⟨added, _, _, _, _, _, _, s₃, -, -, -, -, -, -, heffective, hstore, rfl⟩ :=
    lowerCancellation_eq_ok hcancellation
  have hstored : Traced program s₃ s' := (closed_traced program []).storeEach _ _ _ _ hstore
  exact ⟨action, t, added.effective, haction, rfl,
    hstored.retains _ _ (lower_entered heffective)⟩

/-- A network is completed by calls after its target has been lowered. -/
theorem compile_traced {request : Request α} {net : CompiledNet α} {target : PortId ⊕ ActionPorts}
    {t : Session α} (hlower : lowerTarget program request.target .empty = .ok target t)
    (hrun : Session.compile program request .empty = .ok net s') :
    ∃ s₁, publish target t = .ok () s₁ ∧ Traced program t s₁ ∧ Traced program s₁ s' ∧
      s'.fragment = net.fragment := by
  obtain ⟨_, _, s₁, s₂, s₃, s₄, htarget, hpublish, hobserve, hstates, hexceptions, hfinish, -⟩ :=
    compile_stages hrun
  rw [hlower] at htarget
  cases htarget
  have hclosed := closed_traced program []
  have hregister : ∀ signal port, Leaves (Traced program) (register signal port) :=
    fun signal port s s' u hrun => traced_call (.wire (.register signal port)) hrun
  obtain ⟨htraced₅, hfragment⟩ := finish_traced hfinish
  have htraced : Traced program s₁ s' :=
    (hclosed.observeEach _ _ _ _ _ hobserve).trans
      ((hclosed.aggregateStates _ _ _ _ _ _ hstates).trans
        ((hclosed.aggregateClasses _ _ _ _ _ _ hexceptions).trans htraced₅))
  exact ⟨s₁, hpublish, hclosed.publish hregister _ _ _ _ hpublish, htraced, hfragment⟩

/-- A network has the outputs of its target, and its session still knows the
ports of the expressions of the target. -/
theorem compile_outputs (hp : program.pool.WellFormed) {request : Request α}
    {net : CompiledNet α} {ports : ActionPorts} {t : Session α}
    (hlower : lowerTarget program request.target .empty = .ok (.inr ports) t)
    (hrun : Session.compile program request .empty = .ok net s') :
    t.Retains s' ∧ ∀ name q, ports.outputs.get? name = some q →
      net.fragment.output? name = some q := by
  obtain ⟨s₁, hpublish, htraced₁, htraced, hfragment⟩ := compile_traced hlower hrun
  obtain ⟨hs₁, -⟩ :=
    ((lowerTarget_traced _ _ _ _ hlower).trans htraced₁).thrives hp truthful_empty
  obtain ⟨-, hextends⟩ := htraced.thrives hp hs₁
  refine ⟨(htraced₁.trans htraced).retains, ?_⟩
  intro name q hq
  rw [← hfragment]
  exact hextends.outputs ((publish_announces hpublish).1 hq)

end Session

/-- **The channels of a command.**  Compile any command, with rules of any of the
shapes of `Rule`.  Its network has an output for every channel that the action
drives, except for one that is named like the output of the override; that
output carries the effective override. -/
theorem Compiler.command_channels {α : Type} [Scalar α] {compiler : Compiler α} {pool : Pool α}
    (hpool : pool.Reachable) {host : Host α} {request : Request α} {c : Command α}
    (htarget : request.target = .command c) {net : CompiledNet α}
    (hnet : compiler.compile pool host request = .ok net) :
    let program : Program α :=
      ⟨pool, compiler.rules, request.parameters, compiler.settings, host⟩
    ∃ session action s effective,
      Session.compile program request .empty = .ok net session ∧
      Session.lowerAction program c.action .empty = .ok action s ∧
      session.lowered.get? c.effective = some effective ∧
      net.fragment.output? c.overrideOutputName = some effective ∧
      ∀ channel port, action.outputs.get? channel = some port → channel ≠ c.overrideOutputName →
        net.fragment.output? channel = some port := by
  intro program
  obtain ⟨session, hsession⟩ := Compiler.compile_eq_ok hnet
  obtain ⟨target, t, _, _, _, _, hlower, -⟩ := Session.compile_stages hsession
  rw [htarget] at hlower
  obtain ⟨ports, t, hcommand, hafter⟩ := bind_eq_ok.mp hlower
  obtain ⟨rfl, rfl⟩ := pure_eq_ok.mp hafter
  obtain ⟨action, s, effective, haction, houtputs, heffective⟩ :=
    Session.lowerCommand_outputs hcommand
  obtain ⟨hretains, hnamed⟩ :=
    Session.compile_outputs hpool.wellFormed (htarget ▸ hlower) hsession
  refine ⟨session, action, s, effective, hsession, haction, hretains _ _ heffective, ?_, ?_⟩
  · refine hnamed _ _ ?_
    rw [houtputs, Table.get?_insert_self]
  · intro channel port hport hne
    refine hnamed _ _ ?_
    rw [houtputs, Table.get?_insert_of_ne _ _ hne, hport]

/-! ### A channel with the name of the override -/

/-- A command that holds a channel at 3. -/
def Sample.hold (channel : String) : Building Float (Command Float) := do
  let setpoint ← Pool.constant (.double 3)
  let feedback ← Pool.input "speed" .double .global
  let action ← Action.track "hold" channel setpoint feedback 0.5 1
  Command.new "go" .global action (some 0.5)

theorem Sample.hold_composed (channel : String) : Pool.Composed (Sample.hold channel) :=
  (Pool.composed_run (.constant (.double 3))).bind fun _ =>
    (Pool.composed_run (.input "speed" .double .global)).bind fun _ =>
      (Action.track_composed _ _ _ _ _ _).bind fun action =>
        Command.new_composed _ _ action _

/-- The port of a channel of the action, and the port of that name in the
network. -/
def Sample.holding? (channel : String) : Option (PortId × Option PortId) :=
  match Sample.hold channel { folding := true } with
  | .error _ _ => none
  | .ok c p =>
    match Session.lowerAction ⟨p, .standard, {}, .standard, .offline⟩ c.action .empty,
      Sample.compilePause p c with
    | .ok action _, .ok net =>
      (action.outputs.get? channel).map fun port => (port, net.fragment.output? channel)
    | _, _ => none

theorem Sample.holding?_eq_some {channel : String} {port : PortId} {q : Option PortId}
    (h : Sample.holding? channel = some (port, q)) :
    ∃ c p net action s, Sample.hold channel { folding := true } = .ok c p ∧
      Sample.compilePause p c = .ok net ∧
      Session.lowerAction ⟨p, .standard, {}, .standard, .offline⟩ c.action .empty =
        .ok action s ∧
      action.outputs.get? channel = some port ∧ net.fragment.output? channel = q := by
  unfold Sample.holding? at h
  split at h
  · cases h
  · next c p hbuild =>
    split at h
    · next action s net haction hnet =>
      obtain ⟨port', hport, hpair⟩ := Option.map_eq_some_iff.mp h
      cases hpair
      exact ⟨c, p, net, action, s, hbuild, hnet, haction, hport, rfl⟩
    · cases h

/-- An ordinary channel is among the outputs. -/
theorem Compiler.hold_drives_channel : ∃ c p net action s port,
    Sample.hold "x" { folding := true } = .ok c p ∧ Sample.compilePause p c = .ok net ∧
    Session.lowerAction ⟨p, .standard, {}, .standard, .offline⟩ c.action .empty = .ok action s ∧
    action.outputs.get? "x" = some port ∧ "x" ≠ c.overrideOutputName ∧
    net.fragment.output? "x" = some port := by
  have hholding : Sample.holding? "x" = some (0, some 0) := by decide +kernel
  obtain ⟨c, p, net, action, s, hbuild, hnet, haction, hport, -⟩ :=
    Sample.holding?_eq_some hholding
  obtain ⟨-, hp⟩ := (Sample.hold_composed "x").reachable ⟨true, [], rfl⟩ hbuild
  obtain ⟨_, action', s', _, -, haction', -, -, hchannels⟩ := Compiler.command_channels hp rfl hnet
  cases haction.symm.trans haction'
  have hname : "x" ≠ c.overrideOutputName := by
    intro heq
    have hlength := congrArg String.length heq
    rw [Command.overrideOutputName, String.length_append] at hlength
    have hone : "x".length = 1 := by decide
    have hnine : ".override".length = 9 := by decide
    omega
  exact ⟨c, p, net, action, s, 0, hbuild, hnet, haction, hport, hname, hchannels _ _ hport hname⟩

/-- **The override hides a channel of its name.**  The command compiles, but the
network has no output for the only channel of its action. -/
theorem Compiler.override_hides_channel : ∃ c p net action s port,
    Sample.hold "go.override" { folding := true } = .ok c p ∧
    Sample.compilePause p c = .ok net ∧
    Session.lowerAction ⟨p, .standard, {}, .standard, .offline⟩ c.action .empty = .ok action s ∧
    action.outputs.get? "go.override" = some port ∧
    net.fragment.output? "go.override" ≠ some port := by
  have hholding : Sample.holding? "go.override" = some (0, some 40) := by decide +kernel
  obtain ⟨c, p, net, action, s, hbuild, hnet, haction, hport, hout⟩ :=
    Sample.holding?_eq_some hholding
  refine ⟨c, p, net, action, s, 0, hbuild, hnet, haction, hport, ?_⟩
  rw [hout]
  decide

end SignalNet
