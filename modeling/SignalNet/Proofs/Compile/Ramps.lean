import SignalNet.Proofs.Compile.Commands
import SignalNet.Proofs.Motion.Moving
import SignalNet.Proofs.Motion.Ramp

/-!
# Compiled ramps

An action that is made from a ramp can be compiled by itself, and then runs at
full speed, or in a command, whose override scales it.  This file follows the
loop of the ramp from the pool to the network.

1.  Lowering the action leaves ports for the position and for being completed,
    and the source of the position (`Session.lowerAction_moves`).
2.  Compiling a target leaves a source for the scale as well, closes both
    loops and announces the ports (`Session.compile_drives`).
3.  So the network holds the loop as `Fragment.Ramps` says it
    (`Session.Drives.ramps`).
-/

namespace SignalNet

open Computing Lowering

variable {α : Type} [Scalar α]

/-! ### Lowering a ramp -/

omit [Scalar α] in
/-- The placeholders of an action are those of the ramp in it. -/
theorem Action.placeholders_of_ramp {a : Action α} {channel : String}
    {position scale next distance : ExprId}
    (h : a.motion = .ramp channel position scale next distance) :
    a.positions = [position] ∧ a.scalePlaceholders = [scale] := by
  induction a with
  | basic name motion raises =>
      obtain rfl : motion = _ := h
      exact ⟨rfl, rfl⟩
  | wrapped name inner handled raises ih => exact ih h

omit [Scalar α] in
/-- The forms that a ramp is made of, beside its start and its target. -/
def Form.inRamp : Form α → Bool
  | .constant _ | .clock _ | .placeholder _ _ => true
  | .pre _ _ | .select _ _ _ | .limit _ _ _ => true
  | .unary .neg _ | .unary .abs _ => true
  | .binary .add _ _ | .binary .sub _ _ | .binary .mul _ _ => true
  | _ => false

namespace Session

variable {program : Program α} {s s' : Session α} {channel : String}
  {position scale next distance : ExprId}

omit [Scalar α] in
/-- The ports of a lowered ramp. -/
structure MotionPorts where
  position : PortId
  distance : PortId
  tolerance : PortId
  completed : PortId

/-- What lowering a ramp leaves behind. -/
structure Moves (program : Program α) (position next distance : ExprId) (ports : MotionPorts)
    (s : Session α) : Prop where
  source : s.resolver? position = some ⟨[position], .expression next⟩
  position : s.lowered.get? next = some ports.position
  distance : s.lowered.get? distance = some ports.distance
  tolerance : s.constants.get?
    (Value.double program.settings.completionTolerance : Value α).canonical = some ports.tolerance
  completed : s.fragment.Applies ports.completed (.compare .lessEq)
    [ports.distance, ports.tolerance]

theorem Moves.grow {ports : MotionPorts} {targets : List ExprId}
    (h : Moves program position next distance ports s) (hs : s.Grows targets s') :
    Moves program position next distance ports s' := by
  obtain ⟨_, hcompleted⟩ := h.completed
  exact ⟨hs.resolver? h.source, hs.lowered h.position, hs.lowered h.distance,
    hs.constants h.tolerance, _, hcompleted.extend hs.fragment⟩

/-- Lowering the ramp itself. -/
theorem lowerMotion_moves (h : Wired program s)
    (hnone : s.resolver? position = none) {outputs : Table String PortId} {completed : PortId}
    (hrun : lowerMotion program (.ramp channel position scale next distance) s =
      .ok (outputs, completed) s') :
    ∃ ports, outputs.get? channel = some ports.position ∧ completed = ports.completed ∧
      Wired program s' ∧ Moves program position next distance ports s' := by
  have hclosed := closed_steps program [position]
  obtain ⟨_, s₁, hresolver, hafter⟩ := bind_eq_ok.mp hrun
  obtain ⟨h₁, -⟩ := hclosed.addResolver _ (fun _ hid => hid) _ _ _ hresolver h
  have hsource := resolver?_addResolver hnone List.mem_cons_self hresolver
  obtain ⟨out, s₂, hout, hafter⟩ := bind_eq_ok.mp hafter
  obtain ⟨⟨h₂, hgrows₂⟩, houtAt⟩ : (Wired program s₂ ∧ s₁.Grows [position] s₂) ∧ _ :=
    h₁.lower hout
  obtain ⟨left, s₃, hleft, hafter⟩ := bind_eq_ok.mp hafter
  obtain ⟨⟨h₃, hgrows₃⟩, hleftAt⟩ : (Wired program s₃ ∧ s₂.Grows [position] s₃) ∧ _ :=
    h₂.lower hleft
  obtain ⟨tolerance, s₄, htolerance, hafter⟩ := bind_eq_ok.mp hafter
  obtain ⟨h₄, hgrows₄⟩ := hclosed.constPort _ _ _ _ htolerance h₃
  have htoleranceAt := constPort_entered h₃.wellFormed htolerance
  obtain ⟨reached, s₅, hreached, hafter⟩ := bind_eq_ok.mp hafter
  obtain ⟨h₅, hgrows₅⟩ := hclosed.add _ _ _ _ _ _ hreached h₄
  obtain ⟨_, _, hadded, rfl⟩ := add_added h₄.wellFormed hreached
  obtain ⟨heq, rfl⟩ := pure_eq_ok.mp hafter
  cases heq
  have hgrows₃₅ := hgrows₄.trans hgrows₅
  have hgrows₂₅ := hgrows₃.trans hgrows₃₅
  exact ⟨⟨out, left, tolerance, _⟩, Table.get?_insert_self _ _ _, rfl, h₅,
    hgrows₂₅.resolver? (hgrows₂.resolver? hsource), hgrows₂₅.lowered houtAt,
    hgrows₃₅.lowered hleftAt, hgrows₅.constants htoleranceAt, _, hadded.makes⟩

/-- **Lowering an action that runs a ramp**, however it is wrapped. -/
theorem lowerAction_moves (h : Wired program s) {a : Action α}
    (hmotion : a.motion = .ramp channel position scale next distance)
    (hnone : s.resolver? position = none) {result : ActionPorts}
    (hrun : lowerAction program a s = .ok result s') :
    ∃ ports, result.outputs.get? channel = some ports.position ∧
      result.signals.statePorts .completed = [ports.completed] ∧
      Moves program position next distance ports s' := by
  have hclosed := closed_steps program [position]
  induction a generalizing s' result with
  | basic name motion raises =>
      obtain rfl : motion = _ := hmotion
      obtain ⟨outputs, completed, signals₁, signals₂, s₁, s₂, hlower, hregister, hraises, rfl⟩ :=
        lowerAction_basic_eq_ok hrun
      obtain ⟨ports, houtputs, rfl, h₁, hmoves⟩ := lowerMotion_moves h hnone hlower
      obtain ⟨h₂, hgrows₂⟩ := hclosed.registerCompleted _ _ _ _ _ hregister h₁
      obtain ⟨-, hgrows₃⟩ := hclosed.lowerRaises _ _ _ _ _ hraises h₂
      refine ⟨ports, houtputs, ?_, hmoves.grow (hgrows₂.trans hgrows₃)⟩
      show signals₂.statePorts .completed = _
      rw [lowerRaises_statePorts hraises, (registerCompleted_statePorts hregister rfl).1]
  | wrapped name inner handled raises ih =>
      obtain ⟨inside, completed, signals₁, signals₂, s₁, s₂, s₃, hinside, hany, hregister, hraises,
        rfl⟩ := lowerAction_wrapped_eq_ok hrun
      obtain ⟨ports, houtputs, hcompleted, hmoves⟩ := ih hmotion hinside
      obtain ⟨h₁, -⟩ := hclosed.lowerAction
        (by simp [(Action.placeholders_of_ramp (a := inner) hmotion).1]) _ _ _ hinside h
      -- What is completed inside is completed.
      rw [hcompleted] at hany
      obtain ⟨rfl, rfl⟩ := pure_eq_ok.mp hany
      obtain ⟨h₃, hgrows₃⟩ := hclosed.registerCompleted _ _ _ _ _ hregister h₁
      obtain ⟨-, hgrows₄⟩ := hclosed.lowerRaises _ _ _ _ _ hraises h₃
      have hpassed : (passedOn handled inside.signals).statePorts .completed = [] :=
        statePorts_passedOn handled (Or.inr (by simp))
      refine ⟨ports, houtputs, ?_, hmoves.grow (hgrows₃.trans hgrows₄)⟩
      show signals₂.statePorts .completed = _
      rw [lowerRaises_statePorts hraises, (registerCompleted_statePorts hregister hpassed).1]

end Session

/-! ### Targets -/

/-- A target that runs an action: the action by itself, or a command that was
built for it. -/
inductive Target.Runs (p : Pool α) (a : Action α) : Target α → Prop
  | action : Runs p a (.action a)
  | command {c : Command α} (hc : c.Built p) (haction : c.action = a) : Runs p a (.command c)

/-- The port `q` carries what the ramps of a target are scaled by: one, or the
override that a command puts out. -/
def CompiledNet.ScaledBy (net : CompiledNet α) (q : PortId) : Target α → Prop
  | .expr _ => False
  | .action _ => ∃ one, Scalar.same one 1 = true ∧
      net.fragment.Applies q (.constant (.double one)) []
  | .command c => net.fragment.output? c.overrideOutputName = some q

/-- The number that the ramps of a target are scaled by in a cycle. -/
def Simulator.speed? (s : Simulator α) : Target α → Option α
  | .expr _ => none
  | .action _ => some 1
  | .command c => (s.output? c.overrideOutputName).bind Value.asDouble?

namespace Session

variable {program : Program α} {s s' : Session α} {channel : String}
  {position scale next distance : ExprId}

/-- The action of a target is lowered to these ports when the target is
compiled. -/
inductive LowersTo (program : Program α) : Target α → ActionPorts → Prop
  | action {a : Action α} {ports : ActionPorts} {t : Session α}
      (h : lowerTarget program (.action a) empty = .ok (.inr ports) t) :
      LowersTo program (.action a) ports
  | command {c : Command α} {ports : ActionPorts} {t : Session α}
      (h : lowerAction program c.action empty = .ok ports t) : LowersTo program (.command c) ports

/-- What a compiled ramp leaves behind in its session and in its network. -/
structure Drives (program : Program α) (target : Target α) (channel : String)
    (position scale next distance : ExprId) (ports : MotionPorts) (net : CompiledNet α)
    (s : Session α) : Prop extends Moves program position next distance ports s where
  wired : Wired program s
  resolved : Resolved program s
  fragment : s.fragment = net.fragment
  lowers : ∃ result, LowersTo program target result ∧
    result.outputs.get? channel = some ports.position ∧
    result.signals.statePorts .completed = [ports.completed]
  /-- The scale is resolved by what carries the scale of the target. -/
  scaled : ∃ r, s.resolver? scale = some r ∧
    ∀ source, s.SourceAt source r.source → net.ScaledBy source target
  announced : net.statePort? .completed = some ports.completed
  exposed : (∀ c, target = .command c → channel ≠ c.overrideOutputName) →
    net.fragment.output? channel = some ports.position

/-- **Compiling an action that runs a ramp** gives the ramp full speed. -/
theorem compile_drives_action (hp : program.pool.WellFormed) {a : Action α}
    (hmotion : a.motion = .ramp channel position scale next distance) (hapart : position ≠ scale)
    {request : Request α} (htarget : request.target = .action a) {net : CompiledNet α}
    (hrun : Session.compile program request empty = .ok net s') :
    ∃ ports, Drives program request.target channel position scale next distance ports net s' := by
  obtain ⟨hpositions, hscales⟩ := Action.placeholders_of_ramp hmotion
  obtain ⟨target, t, hlower, -⟩ := bind_eq_ok.mp hrun
  have hbranch := hlower
  rw [htarget, lowerTarget] at hbranch
  obtain ⟨s₁, hramps, hafter⟩ := ramps_eq_ok hbranch
  rcases hramps with ⟨hnone, -⟩ | hresolver
  · simp [hscales] at hnone
  obtain ⟨result, s₂, haction, hpure⟩ := bind_eq_ok.mp hafter
  obtain ⟨rfl, rfl⟩ := pure_eq_ok.mp hpure
  have hempty : ∀ id, (empty : Session α).resolver? id = none := fun _ => rfl
  have hfull := resolver?_addResolver (hempty scale) (by simp [hscales]) hresolver
  obtain ⟨h₁, hgrows₁⟩ : Wired program s₁ ∧ empty.Grows [scale] s₁ :=
    steps_addResolver (by simp [hscales]) hresolver (wired_empty program)
  have hnone : s₁.resolver? position = none := by
    rw [hgrows₁.resolver?_eq (by simpa using hapart), hempty]
  obtain ⟨ports, houtputs, hcompleted, hmoves⟩ :=
    lowerAction_moves h₁ hmotion hnone haction
  obtain ⟨h₂, hgrows₂⟩ := (closed_steps program a.positions).lowerAction (fun _ hid => hid) _ _ _
    haction h₁
  have hquiet : Registers Registry.Alike (empty : Session α) s₂ := by
    have hclosed := closed_registers Registry.grown_alike program a.placeholders
    refine hclosed.trans (hclosed.addResolver _ ?_ _ _ _ hresolver)
      (hclosed.lowerAction ?_ _ _ _ haction)
    · exact fun id hid => List.mem_append_right _ hid
    · exact fun id hid => List.mem_append_left _ hid
  obtain ⟨⟨hwired, hgrows⟩, hfragment, hresolved, hnames, hstates⟩ :
      (Wired program s' ∧ s₂.Grows [] s') ∧ _ :=
    compile_announces hp hlower h₂ hquiet hrun
  refine ⟨ports, ⟨hmoves.grow hgrows, hwired, hresolved, hfragment, ?_, ?_, ?_, ?_⟩⟩
  · rw [htarget] at hlower ⊢
    exact ⟨result, .action hlower, houtputs, hcompleted⟩
  · refine ⟨_, (hgrows₂.trans (hgrows.mono (by simp))).resolver? hfull, ?_⟩
    intro source hsource
    obtain ⟨v, hv, hmakes⟩ := hwired.constants hsource
    obtain ⟨one, rfl, hone⟩ := Value.eq_double hv
    rw [htarget]
    exact ⟨one, hone, _, hfragment ▸ hmakes⟩
  · exact hstates (by simp) hcompleted
  · exact fun _ => hnames houtputs

/-- **Compiling a command that runs a ramp** scales the ramp by the override. -/
theorem compile_drives_command (hp : program.pool.WellFormed) {c : Command α}
    (hc : c.Built program.pool)
    (hmotion : c.action.motion = .ramp channel position scale next distance)
    (hapart : position ≠ scale) {request : Request α} (htarget : request.target = .command c)
    {net : CompiledNet α} (hrun : Session.compile program request empty = .ok net s') :
    ∃ ports, Drives program request.target channel position scale next distance ports net s' := by
  obtain ⟨hpositions, hscales⟩ := Action.placeholders_of_ramp hmotion
  obtain ⟨parts, hscaled⟩ := hc.scaled
  obtain ⟨result, handled, t, commandPorts, hrequests, ⟨hwired, hgrows⟩, hserves, hfragment,
    hresolved, hannounces⟩ := compile_serves hp hscaled.apart htarget hrun
  obtain ⟨-, -, -, -, hramps, t₀, haction, hgrows₀⟩ :=
    lowerRequests_wired hscaled.apart.2.2 hrequests
  obtain ⟨ports, houtputs, hcompleted, hmoves⟩ :=
    lowerAction_moves (wired_empty program) hmotion rfl haction
  have hscale := hramps scale (by simp [hscales]) (by simpa [hpositions] using Ne.symm hapart)
  refine ⟨ports, ⟨(hmoves.grow hgrows₀).grow hgrows, hwired, hresolved, hfragment, ?_, ?_, ?_, ?_⟩⟩
  · rw [htarget]
    exact ⟨result, .command haction, houtputs, hcompleted⟩
  · refine ⟨_, hgrows.resolver? hscale, ?_⟩
    intro source hsource
    rw [htarget]
    obtain rfl : commandPorts.effective = source :=
      Option.some.inj (hserves.effective.symm.trans hsource)
    exact hannounces.override
  · exact hannounces.completed hcompleted
  · exact fun hname => hannounces.channels (hname c htarget) houtputs

theorem compile_drives (hp : program.pool.WellFormed) {a : Action α}
    (hmotion : a.motion = .ramp channel position scale next distance) (hapart : position ≠ scale)
    {request : Request α} (htarget : request.target.Runs program.pool a) {net : CompiledNet α}
    (hrun : Session.compile program request empty = .ok net s') :
    ∃ ports, Drives program request.target channel position scale next distance ports net s' := by
  cases heq : request.target with
  | expr id => rw [heq] at htarget; cases htarget
  | action b =>
      rw [heq] at htarget
      cases htarget
      exact heq ▸ compile_drives_action hp hmotion hapart heq hrun
  | command c =>
      rw [heq] at htarget
      obtain _ | ⟨hc, rfl⟩ := htarget
      exact heq ▸ compile_drives_command hp hc hmotion hapart heq hrun

/-! ### The loop in the network -/

/-- How far the ramp moves in a cycle at full speed. -/
theorem Wired.rampLength (hrules : program.rules.KeepAll Form.inRamp) (h : Wired program s)
    {maxRate : α} {back step : ExprId}
    {stride : RampStride} {q : PortId} (hq : s.lowered.get? stride.length = some q)
    (hstride : program.pool.HoldsStride maxRate scale back step stride) :
    ∃ rate period, Scalar.same rate maxRate = true ∧
      s.fragment.Applies period (.clock .period) [] ∧
      ((∃ r, (s.fragment.Applies q (.binary .mul) [r, period] ∨
          s.fragment.Applies q (.binary .mul) [period, r]) ∧
        s.fragment.Applies r (.constant (.double rate)) []) ∨
      q = period ∧ Scalar.eqv rate 1 = true) := by
  have hconstant : ∀ {r : PortId}, s.lowered.get? stride.rate = some r →
      ∃ rate, Scalar.same rate maxRate = true ∧
        s.fragment.Applies r (.constant (.double rate)) [] := by
    intro r hr
    obtain ⟨_, hv, happlies⟩ := h.applies_literal (hrules rfl) hr hstride.rate
    obtain ⟨rate, rfl, hrate⟩ := Value.eq_double hv
    exact ⟨rate, hrate, happlies⟩
  have hclock : ∀ {period : PortId}, s.lowered.get? stride.period = some period →
      s.fragment.Applies period (.clock .period) [] := by
    intro period hperiod
    obtain ⟨_, happlies, _ | _⟩ := h.applies_kept (hrules rfl) hperiod hstride.period rfl rfl
    exact happlies
  rcases hstride.length with hmul | hmul | ⟨heq, w, hw, hone⟩
  · obtain ⟨_, happlies, _ | ⟨hrate, _ | ⟨hperiod, _ | _⟩⟩⟩ := h.applies_kept (hrules rfl) hq hmul rfl rfl
    obtain ⟨rate, hshared, hvalue⟩ := hconstant hrate
    exact ⟨rate, _, hshared, hclock hperiod, Or.inl ⟨_, Or.inl happlies, hvalue⟩⟩
  · obtain ⟨_, happlies, _ | ⟨hperiod, _ | ⟨hrate, _ | _⟩⟩⟩ := h.applies_kept (hrules rfl) hq hmul rfl rfl
    obtain ⟨rate, hshared, hvalue⟩ := hconstant hrate
    exact ⟨rate, _, hshared, hclock hperiod, Or.inl ⟨_, Or.inr happlies, hvalue⟩⟩
  · obtain ⟨rate, rfl, hrate⟩ := Value.eq_double hw
    rw [heq] at hq
    exact ⟨rate, q, hrate, hclock hq, Or.inr ⟨rfl, hone⟩⟩

/-- **The network holds the loop of the ramp**, with the constants that it was
written down with up to sharing. -/
theorem Drives.ramps (hrules : program.rules.KeepAll Form.inRamp) {target : Target α} {ports : MotionPorts} {net : CompiledNet α}
    (h : Drives program target channel position scale next distance ports net s)
    {maxRate : α} {start goal : ExprId} {parts : RampParts} {origin : RampOrigin}
    {stride : RampStride}
    (hholds : program.pool.HoldsRamp maxRate start goal position scale next distance parts origin
      stride) (hrate : Pool.NoZero maxRate) :
    ∃ source destination override loop rate tolerance,
      s.lowered.get? start = some source ∧ s.lowered.get? goal = some destination ∧
      net.ScaledBy override target ∧ Scalar.same rate maxRate = true ∧
      Scalar.same tolerance program.settings.completionTolerance = true ∧
      net.fragment.Ramps rate tolerance ports.position source destination override ports.completed
        loop := by
  have hw := h.wired
  have hcopies : Resolved program s := h.resolved
  have hstride := hholds.stride hrate
  -- From the position up to the origin, the target and the stride.
  obtain ⟨_, hnext, _ | ⟨horiginAt, _ | ⟨hdeltaAt, _ | _⟩⟩⟩ :=
    hw.applies_kept (hrules rfl) h.position hholds.next rfl rfl
  obtain ⟨_, hdelta, _ | ⟨hleftAt, _ | ⟨hbackAt, _ | ⟨hstepAt, _ | _⟩⟩⟩⟩ :=
    hw.applies_kept (hrules rfl) hdeltaAt hholds.delta rfl rfl
  obtain ⟨_, hleft, _ | ⟨hgoalAt, _ | ⟨horiginAt', _ | _⟩⟩⟩ :=
    hw.applies_kept (hrules rfl) hleftAt hholds.left rfl rfl
  rw [horiginAt] at horiginAt'
  cases horiginAt'
  obtain ⟨_, horigin, _ | ⟨hstartedAt, _ | ⟨hpreviousAt, _ | ⟨hsourceAt, _ | _⟩⟩⟩⟩ :=
    hw.applies_kept (hrules rfl) horiginAt hholds.origin.origin rfl rfl
  obtain ⟨v, on, hv, hstarted, honAt⟩ := hw.applies_pre (hrules rfl) hstartedAt hholds.origin.started
  obtain rfl := Value.eq_boolean hv
  obtain ⟨v, hv, hon⟩ := hw.applies_literal (hrules rfl) honAt hholds.origin.on
  obtain rfl := Value.eq_boolean hv
  obtain ⟨initial, state, -, hprevious, hstateAt⟩ :=
    hw.applies_pre (hrules rfl) hpreviousAt hholds.origin.previous
  obtain ⟨number, label, hposition⟩ := hholds.positionOpen
  obtain ⟨copied, hcopied, hstate⟩ := hcopies.applies (hrules rfl) hstateAt hposition h.source
  obtain rfl : ports.position = copied := Option.some.inj (h.position.symm.trans hcopied)
  obtain ⟨_, hback, _ | ⟨hstepAt', _ | _⟩⟩ := hw.applies_kept (hrules rfl) hbackAt hstride.back rfl rfl
  rw [hstepAt] at hstepAt'
  cases hstepAt'
  obtain ⟨_, hstep, _ | ⟨hlengthAt, _ | ⟨hscaleAt, _ | _⟩⟩⟩ :=
    hw.applies_kept (hrules rfl) hstepAt hstride.step rfl rfl
  obtain ⟨r, hr, hsource⟩ := h.scaled
  obtain ⟨number', label', hscale⟩ := hholds.scaleOpen
  obtain ⟨override, hoverride, hscaleCopies⟩ := hcopies.applies (hrules rfl) hscaleAt hscale hr
  -- From the distance down to the position.
  obtain ⟨_, hdistance, _ | ⟨hremainingAt, _ | _⟩⟩ :=
    hw.applies_kept (hrules rfl) h.distance hholds.distance rfl rfl
  obtain ⟨_, hremaining, _ | ⟨hgoalAt', _ | ⟨hnextAt, _ | _⟩⟩⟩ :=
    hw.applies_kept (hrules rfl) hremainingAt hholds.remaining rfl rfl
  rw [hgoalAt] at hgoalAt'
  cases hgoalAt'
  rw [h.position] at hnextAt
  cases hnextAt
  obtain ⟨_, hv, hmakes⟩ := hw.constants h.tolerance
  obtain ⟨tolerance, rfl, htolerance⟩ := Value.eq_double hv
  rw [hholds.target] at hgoalAt
  obtain ⟨rate, period, hshared, hperiod, hlength⟩ := hw.rampLength hrules hlengthAt hstride
  have hloop : s.fragment.Ramps rate tolerance ports.position _ _ override ports.completed
      ⟨_, _, _, _, _, _, _, _, _, _, period, _, _, _, ports.tolerance⟩ :=
    { next := hnext
      delta := hdelta
      left := hleft
      origin := horigin
      started := hstarted
      on := hon
      previous := ⟨initial, hprevious⟩
      state := hstate
      back := hback
      step := hstep
      scale := hscaleCopies
      length := hlength
      period := hperiod
      remaining := hremaining
      distance := hdistance
      tolerance := ⟨_, hmakes⟩
      completed := h.completed }
  exact ⟨_, _, override, _, rate, tolerance, hsourceAt, hgoalAt, hsource _ hoverride, hshared,
    htolerance, h.fragment ▸ hloop⟩

end Session

end SignalNet
