import SignalNet.Proofs.Compile.Override
import SignalNet.Proofs.Compile.Ramps
import SignalNet.Proofs.Scalar.Places
import SignalNet.Proofs.Scalar.Products

/-!
# How compiled ramps approach their targets

An action that is made from a ramp is compiled, by itself or in a command, and
runs.  In every cycle it moves by what is left of the way, kept within a
stride, which is the product of the period, the rate and the override
(`CompiledNet.Travels`).

* `Session.Drives.travels` says so for what a session has lowered, and
  `Compiler.ramp_recurs` for compiled targets.  Of the arithmetic of scalars
  only the laws of products are used.
* `Compiler.ramp_advances` is about double precision: a ramp does not move away
  from its target in a cycle whose override is not below zero.

An override below zero turns the stride around, so that its lower end is above
its upper end, and the ramp moves down by the whole stride wherever its target
is (`Compiler.move_retreats`).
-/

namespace SignalNet

open Computing

variable {α : Type} [Scalar α]

/-! ### Runs of a ramp -/

open Simulator in
/-- **The recurrence of a ramp.**  In every cycle of every run, as long as no
cycle fails, the port `position` carries where the ramp was in the cycle
before, which is `source` in the first one, and what is left to `goal`, kept
within a stride.  The port `completed` says that no more is left than the
tolerance. -/
def CompiledNet.Travels (net : CompiledNet α) (target : Target α) (maxRate tolerance : α)
    (source goal position completed : PortId) : Prop :=
  ∀ (period : α) (x : Nat → Stimulus α) (n : Nat) (s₀ s : Simulator α),
    start net.fragment period = .ok s₀ → drive x (n + 1) s₀ = .ok s →
    ∃ a b speed, before (s.double? source) (numberIn x s₀ position) n = some a ∧
      s.value? goal = some (.double b) ∧ s.speed? target = some speed ∧
      let stride := period * maxRate * speed
      let next := a + Scalar.limit (b - a) (-stride) stride
      s.value? position = some (.double next) ∧
        s.boolean? completed = some (Scalar.le (Scalar.abs (b - next)) tolerance)

open Simulator in
/-- The port that scales the ramps of a target carries the scale. -/
theorem CompiledNet.ScaledBy.speed (laws : Scalar.ZeroLaws α) {net : CompiledNet α} {q : PortId}
    {target : Target α} (h : net.ScaledBy q target) (hf : net.fragment.WellFormed)
    {s s' : Simulator α} (hcycle : Cycle s s') (hfragment : s.fragment = net.fragment) {v : α}
    (hv : s'.value? q = some (.double v)) : s'.speed? target = some v := by
  cases target with
  | expr id => cases h
  | action a =>
      obtain ⟨one, hone, happlies⟩ := h
      have hconstant := hcycle.applies_constant (hfragment.symm ▸ hf) (hfragment.symm ▸ happlies)
      rw [hv] at hconstant
      cases hconstant
      rw [laws.eq_one hone]
      rfl
  | command c =>
      have hname : s'.fragment.output? c.overrideOutputName = some q := by
        rw [hcycle.fragment, hfragment]
        exact h
      simp [speed?, output?, hname, hv, Value.asDouble?]

/-- Sharing does not take a positive number for zero. -/
theorem Scalar.ZeroLaws.noZero (laws : ZeroLaws α) {a : α} (hpositive : lt 0 a = true) :
    Pool.NoZero a := by
  intro w hw
  obtain ⟨z, rfl, hz⟩ := Value.eq_double hw
  rw [laws.eq_of_positive hpositive hz]
  exact laws.eqv_zero_of_positive hpositive

/-- How far a ramp moves in a cycle at full speed, whatever folding has made of
the product. -/
theorem Scalar.ProductLaws.length_eq (laws : ProductLaws α) {rate period length : α}
    (h : IsLength rate period length) : length = period * rate := by
  rcases h with rfl | rfl | ⟨rfl, hone⟩
  · exact laws.mul_comm _ _
  · rfl
  · rw [laws.eq_one (laws.same_of_eqv hone), laws.mul_one]

namespace Session

/-- **A ramp in a session travels** as the recurrence says. -/
theorem Drives.travels (laws : Scalar.ProductLaws α) {program : Program α} {s : Session α}
    {channel : String} {position scale next distance : ExprId} {target : Target α}
    {ports : MotionPorts} {net : CompiledNet α}
    (hrules : program.rules.KeepAll Form.inRamp)
    (h : Drives program target channel position scale next distance ports net s)
    {maxRate : α} (hpositive : Scalar.lt 0 maxRate = true) {start goal : ExprId}
    {parts : RampParts} {origin : RampOrigin} {stride : RampStride}
    (hholds : program.pool.HoldsRamp maxRate start goal position scale next distance parts origin
      stride) :
    ∃ source destination, s.lowered.get? start = some source ∧
      s.lowered.get? goal = some destination ∧
      net.Travels target maxRate program.settings.completionTolerance source destination
        ports.position ports.completed := by
  obtain ⟨source, destination, override, loop, rate, tolerance, hsource, hdestination, hscaled,
    hrate, htolerance, hramps⟩ := h.ramps hrules hholds (laws.noZero hpositive)
  obtain rfl : rate = maxRate := laws.eq_of_positive hpositive hrate
  have hf : net.fragment.WellFormed := h.fragment ▸ h.wired.wellFormed
  refine ⟨source, destination, hsource, hdestination, ?_⟩
  intro period x n s₀ s' hstart hdrive
  obtain ⟨a, b, speed, length, hlength, ha, hb, hspeed, hnext, hcompleted⟩ :=
    hramps.recurs hf hstart hdrive
  obtain ⟨_, -, hfragment, -, -, hcycle, -⟩ := Simulator.drive_last hf hstart hdrive
  obtain rfl : length = period * rate := laws.length_eq hlength
  refine ⟨a, b, speed, ha, hb, hscaled.speed laws.toZeroLaws hf hcycle hfragment hspeed, hnext, ?_⟩
  rw [hcompleted, laws.le_eq (Scalar.same_iff.mpr rfl) htolerance]

/-- **Compiling an action that is made from a ramp**, by itself or in a command,
gives a network in which the channel travels. -/
theorem compile_travels (laws : Scalar.ProductLaws α) {program : Program α}
    (hp : program.pool.WellFormed) (hrules : program.rules.KeepAll Form.inRamp)
    {channel : String} {start target : ExprId} {maxRate : α}
    {a : Action α} (ha : Action.RampOf channel start target maxRate program.pool a)
    {request : Request α} (htarget : request.target.Runs program.pool a) {net : CompiledNet α}
    {s : Session α} (hrun : Session.compile program request .empty = .ok net s) :
    Scalar.lt 0 maxRate = true ∧ ∃ action source goal position completed,
      s.lowered.get? start = some source ∧ s.lowered.get? target = some goal ∧
      LowersTo program request.target action ∧ action.outputs.get? channel = some position ∧
      action.signals.statePorts .completed = [completed] ∧
      net.statePort? .completed = some completed ∧
      ((∀ c, request.target = .command c → channel ≠ c.overrideOutputName) →
        net.fragment.output? channel = some position) ∧
      net.Travels request.target maxRate program.settings.completionTolerance source goal position
        completed := by
  obtain ⟨hpositive, position, scale, next, distance, parts, origin, stride, hmotion, hbefore,
    hholds⟩ := ha.holds
  obtain ⟨ports, hdrives⟩ :=
    compile_drives hp hmotion (Nat.ne_of_lt hbefore) htarget hrun
  obtain ⟨source, goal, hsource, hgoal, htravels⟩ := hdrives.travels laws hrules hpositive hholds
  obtain ⟨action, hlowers, hposition, hcompleted⟩ := hdrives.lowers
  exact ⟨hpositive, action, source, goal, ports.position, ports.completed, hsource, hgoal, hlowers,
    hposition, hcompleted, hdrives.announced, hdrives.exposed, htravels⟩

end Session

open Simulator in
/-- **A ramp does not move away from its target** in a cycle whose override is
not below zero: if it is at or below the target it is not lower than before, and
if it is at or above the target it is not higher.  In a cycle whose stride is
below zero it takes the whole stride, so that it does not go up, wherever the
target is. -/
theorem Compiler.ramp_advances {settings : Settings Float} {pool : Pool Float}
    (hpool : pool.Reachable) {host : Host Float} {channel : String} {start target : ExprId}
    {maxRate : Float} {a : Action Float} (ha : Action.RampOf channel start target maxRate pool a)
    {request : Request Float} (htarget : request.target.Runs pool a) {net : CompiledNet Float}
    (hnet : Compiler.compile ⟨.standard, settings⟩ pool host request = .ok net) :
    let program : Program Float := ⟨pool, .standard, request.parameters, settings, host⟩
    ∃ session action source goal position,
      Session.compile program request .empty = .ok net session ∧
      session.lowered.get? start = some source ∧ session.lowered.get? target = some goal ∧
      Session.LowersTo program request.target action ∧
      action.outputs.get? channel = some position ∧
      ((∀ c, request.target = .command c → channel ≠ c.overrideOutputName) →
        net.fragment.output? channel = some position) ∧
      ∀ (period : Float) (x : Nat → Stimulus Float) (n : Nat) (s₀ s : Simulator Float),
        Simulator.start net.fragment period = .ok s₀ → drive x (n + 1) s₀ = .ok s →
        ∃ earlier b speed later,
          before (s.double? source) (numberIn x s₀ position) n = some earlier ∧
          s.value? goal = some (.double b) ∧ s.speed? request.target = some speed ∧
          s.value? position = some (.double later) ∧
          let stride := period * maxRate * speed
          (Scalar.lt speed 0 = false →
            (Scalar.le earlier b = true → Scalar.lt later earlier = false) ∧
            (Scalar.le b earlier = true → Scalar.lt earlier later = false)) ∧
          (Scalar.lt stride 0 = true →
            later = earlier + stride ∧ Scalar.lt earlier later = false) := by
  intro program
  obtain ⟨session, hsession⟩ := compile_eq_ok hnet
  obtain ⟨hpositive, action, source, goal, position, _, hsource, hgoal, hlowers, hposition, -, -,
    hexposed, htravels⟩ := Session.compile_travels Double.productLaws hpool.wellFormed
      (Rules.standard_keepAll _) ha htarget hsession
  refine ⟨session, action, source, goal, position, hsession, hsource, hgoal, hlowers, hposition,
    hexposed, ?_⟩
  intro period x n s₀ s hstart hdrive
  obtain ⟨earlier, b, speed, hearlier, hb, hspeed, hnext, -⟩ := htravels _ _ _ _ _ hstart hdrive
  refine ⟨earlier, b, speed, _, hearlier, hb, hspeed, hnext, ?_, ?_⟩
  · intro hforward
    have hfull : Scalar.lt (period * maxRate) 0 = false :=
      Double.mul_not_below (Double.not_below_of_positive (Simulator.start_positive hstart))
        (Double.not_below_of_positive hpositive)
    have hstride := Double.mul_not_below hfull hforward
    exact ⟨Double.step_up hstride, Double.step_down hstride⟩
  · intro hbackward
    rw [Double.limit_back hbackward]
    exact ⟨rfl, Double.add_back hbackward⟩

/-! ### A ramp at a speed of the user -/

/-- A command that runs a wrapped ramp from zero, at a speed of the user. -/
def Sample.move (goal rate deceleration : α) :
    Building α ((ExprId × ExprId × Action α) × Command α) := do
  let start ← Pool.constant (.double 0)
  let target ← Pool.constant (.double goal)
  let speed ← Pool.input "speed" .double .global
  let ramp ← Action.ramp "ramp" "x" start target rate
  let c ← Command.new "go" .global (Action.wrap "move" ramp) (some deceleration)
  let c ← c.withOverride speed
  return ((start, target, Action.wrap "move" ramp), c)

theorem Sample.move_built {goal rate deceleration : α} {start target : ExprId} {a : Action α}
    {c : Command α} {p : Pool α}
    (h : Sample.move goal rate deceleration { folding := true } = .ok ((start, target, a), c) p) :
    p.Reachable ∧ Action.RampOf "x" start target rate p a ∧ (Target.command c).Runs p a := by
  have hempty : ({ folding := true } : Pool α).Reachable := ⟨true, [], rfl⟩
  obtain ⟨start', p₁, hstart, h⟩ := bind_eq_ok.mp h
  obtain ⟨-, hp₁⟩ := (Pool.composed_run (.constant (.double 0))).reachable hempty hstart
  obtain ⟨target', p₂, htarget, h⟩ := bind_eq_ok.mp h
  obtain ⟨-, hp₂⟩ := (Pool.composed_run (.constant (.double goal))).reachable hp₁ htarget
  obtain ⟨speed, p₃, hspeed, h⟩ := bind_eq_ok.mp h
  obtain ⟨-, hp₃⟩ := (Pool.composed_run (.input "speed" .double .global)).reachable hp₂ hspeed
  obtain ⟨ramp, p₄, hramp, h⟩ := bind_eq_ok.mp h
  obtain ⟨-, hp₄⟩ := (Action.ramp_composed _ _ _ _ _).reachable hp₃ hramp
  obtain ⟨c₅, p₅, hnew, h⟩ := bind_eq_ok.mp h
  obtain ⟨hq₅, hp₅⟩ := (Command.new_composed _ _ _ _).reachable hp₄ hnew
  obtain ⟨c₆, p₆, hover, h⟩ := bind_eq_ok.mp h
  obtain ⟨hq₆, hp₆⟩ := (Command.withOverride_composed _ _).reachable hp₅ hover
  obtain ⟨hpair, rfl⟩ := pure_eq_ok.mp h
  cases hpair
  have hmade : Action.RampOf "x" start target rate p₄ (Action.wrap "move" ramp) :=
    .wrap (.ramp hp₃ hramp) "move"
  obtain ⟨haction, -⟩ := Command.new_made hnew
  obtain ⟨_, _, -, hsame⟩ := bind_eq_ok.mp hover
  obtain ⟨rfl, -⟩ := pure_eq_ok.mp hsame
  have hbuilt : c₅.Built p₅ := .new hp₄ hmade.built hnew
  exact ⟨hp₆, (hmade.later hp₄ hq₅).later hp₅ hq₆,
    .command (.withOverride hp₅ hbuilt hover) haction⟩

/-- Ask for one speed all the time. -/
def Sample.pace (speed : α) (_ : Nat) : Stimulus α :=
  { inputs := [("speed", .double speed)] }

open Simulator in
/-- The ramp goes up for two cycles at half speed. -/
theorem Sample.move_runs :
    Sample.commandRuns .standard (Sample.move (10 : Float) 2 0.5) 0.125 (Sample.pace 0.5) 2
      (fun ids c _ _ session s₀ s => decide ("x" ≠ c.overrideOutputName) &&
        (decide (s.speed? (.command c) = some 0.5) &&
          (decide ((session.lowered.get? ids.2.1).bind s.value? = some (.double 10)) &&
            (decide ((s₀.fragment.output? "x").bind (numberIn (Sample.pace 0.5) s₀ · 0) =
              some 0.125) &&
              (!Scalar.lt (0.5 : Float) 0 && Scalar.le (0.125 : Float) 10))))) = true := by
  decide +kernel

open Simulator in
/-- The ramp does not go down. -/
theorem Compiler.move_advances : ∃ start target a c p net s₀ s position earlier later,
    Sample.move (10 : Float) 2 0.5 { folding := true } = .ok ((start, target, a), c) p ∧
    Sample.compilePause p c = .ok net ∧ Simulator.start net.fragment 0.125 = .ok s₀ ∧
    drive (Sample.pace 0.5) 2 s₀ = .ok s ∧ net.fragment.output? "x" = some position ∧
    numberIn (Sample.pace 0.5) s₀ position 0 = some earlier ∧
    s.value? position = some (.double later) ∧ Scalar.lt later earlier = false := by
  obtain ⟨⟨start, target, a⟩, c, p, net, s₀, s, hbuild, hnet, hstart, hdrive, htest⟩ :=
    Sample.commandRuns_eq_true Sample.move_runs
  obtain ⟨hp, ha, htarget⟩ := Sample.move_built hbuild
  obtain ⟨session, _, _, goal, position, hsession, -, hgoal, -, -, hexposed, hadvances⟩ :=
    Compiler.ramp_advances hp ha htarget hnet
  have htest := htest session hsession
  simp only [Bool.and_eq_true, decide_eq_true_eq, Bool.not_eq_true'] at htest
  obtain ⟨hname, hspeed, hvalue, hnumber, hforth, hbelow⟩ := htest
  have hposition : net.fragment.output? "x" = some position := by
    refine hexposed ?_
    rintro _ ⟨⟩
    exact hname
  obtain ⟨earlier, b, speed, later, hearlier, hb, hspeed', hlater, hforward, -⟩ :=
    hadvances _ _ 1 _ _ hstart hdrive
  rw [hspeed] at hspeed'
  cases hspeed'
  rw [hgoal, Option.bind_some, hb] at hvalue
  cases hvalue
  have hfragment : s₀.fragment = net.fragment :=
    congrArg Simulator.fragment (start_eq_ok hstart).2.2
  rw [hfragment, hposition, Option.bind_some,
    show numberIn (Sample.pace 0.5) s₀ position 0 = some earlier from hearlier] at hnumber
  cases hnumber
  obtain ⟨hup, -⟩ := hforward hforth
  exact ⟨start, target, a, c, p, net, s₀, s, position, _, later, hbuild, hnet, hstart, hdrive,
    hposition, hearlier, hlater, hup hbelow⟩

open Simulator in
/-- **An override below zero drives a ramp away from its target.**  The target
is at ten, the ramp is below it, and goes on going down. -/
theorem Compiler.move_retreats : ∃ start target a c p net s₀ s₁ s₂,
    Sample.move (10 : Float) 1 0.5 { folding := true } = .ok ((start, target, a), c) p ∧
    p.literal? target = some (.double 10) ∧
    Sample.compilePause p c = .ok net ∧ Simulator.start net.fragment 0.125 = .ok s₀ ∧
    drive (Sample.pace (-1)) 1 s₀ = .ok s₁ ∧ drive (Sample.pace (-1)) 2 s₀ = .ok s₂ ∧
    s₁.output? "x" = some (.double (-0.125)) ∧ s₂.output? "x" = some (.double (-0.25)) ∧
    Scalar.le (-0.125 : Float) 10 = true ∧ Scalar.lt (-0.25 : Float) (-0.125) = true := by
  have hruns : Sample.commandRuns .standard (Sample.move (10 : Float) 1 0.5) 0.125
      (Sample.pace (-1)) 2
      (fun ids _ p _ _ s₀ s => p.literal? ids.2.1 == some (.double 10) &&
        ((match drive (Sample.pace (-1)) 1 s₀ with
          | .ok s₁ => s₁.output? "x" == some (.double (-0.125))
          | .error _ => false) && (s.output? "x" == some (.double (-0.25)) &&
            (Scalar.le (-0.125 : Float) 10 && Scalar.lt (-0.25 : Float) (-0.125))))) = true := by
    decide +kernel
  obtain ⟨⟨start, target, a⟩, c, p, net, s₀, s₂, hbuild, hnet, hstart, hdrive, htest⟩ :=
    Sample.commandRuns_eq_true hruns
  obtain ⟨s₁, hfirst, -⟩ := drive_succ_eq_ok.mp hdrive
  obtain ⟨session, hsession⟩ := compile_eq_ok hnet
  have htest := htest session hsession
  simp only [hfirst, Bool.and_eq_true, beq_iff_eq] at htest
  obtain ⟨hliteral, hbefore, hafter, hbelow, haway⟩ := htest
  exact ⟨start, target, a, c, p, net, s₀, s₁, s₂, hbuild, hliteral, hnet, hstart, hfirst, hdrive,
    hbefore, hafter, hbelow, haway⟩

end SignalNet
