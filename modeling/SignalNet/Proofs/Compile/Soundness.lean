import SignalNet.Compile.Compiler
import SignalNet.Proofs.Compile.Representation
import SignalNet.Proofs.Compile.Signals
import SignalNet.Proofs.Net.Soundness

/-!
# Compiled networks are sound

Compiling a request with the rules of the library gives a typed network
(`Session.compile_typed`), whatever is compiled and observed: the ports that
stand for states and exceptions are outputs for booleans, and every block
accepts the kinds of its ports.

`Compiler.compile_sound` joins this with what a typed network does, and says
how the cycles of a compiled network end.
-/

namespace SignalNet

open Computing Lowering

variable {α : Type} [Scalar α]

/-- What is compiled comes from the calls that make it. -/
def Target.Built (p : Pool α) : Target α → Prop
  | .expr _ => True
  | .action a => a.Built p
  | .command c => c.Built p

namespace Session

variable {program : Program α} {s s' : Session α}

/-! ### Names and signals -/

theorem Typed.expose (h : Typed program s) {name : String} {q : PortId} {u : Unit}
    (hrun : wire (Fragment.expose name q) s = .ok u s') : Leads program s s' := by
  obtain ⟨f, hcall, rfl⟩ := wire_eq_ok.mp hrun
  obtain ⟨-, hextends, -, hwell, hblocks, hports, hconnections, hsignals⟩ :=
    Fragment.expose_eq_ok hcall
  refine h.grow hextends (hwell h.wellFormed) ?_ hsignals
  intro b blk hb
  rw [hblocks] at hb
  exact (h.blocks hb).extend hextends

theorem Typed.exposeEach (h : Typed program s) {names : List (String × PortId)} {u : Unit}
    (hrun : Session.exposeEach names s = .ok u s') : Leads program s s' := by
  induction names generalizing s with
  | nil =>
      obtain ⟨-, rfl⟩ := pure_eq_ok.mp hrun
      exact h.leads
  | cons entry rest ih =>
      obtain ⟨name, port⟩ := entry
      obtain ⟨_, s₁, hfirst, hrest⟩ := bind_eq_ok.mp hrun
      have hleads := h.expose hfirst
      exact hleads.trans (ih hleads.typed hrest)

theorem Typed.registerEach (h : Typed program s) {entries : List (Signal × PortId)}
    (hentries : ∀ signal q, (signal, q) ∈ entries → s.fragment.Offers q .boolean) {u : Unit}
    (hrun : Session.registerEach entries s = .ok u s') : Leads program s s' := by
  induction entries generalizing s with
  | nil =>
      obtain ⟨-, rfl⟩ := pure_eq_ok.mp hrun
      exact h.leads
  | cons entry rest ih =>
      obtain ⟨signal, port⟩ := entry
      obtain ⟨_, s₁, hfirst, hrest⟩ := bind_eq_ok.mp hrun
      have hleads := h.register (hentries signal port (by simp)) hfirst
      refine hleads.trans (ih hleads.typed ?_ hrest)
      intro other q hq
      exact (hentries other q (by simp [hq])).extend hleads.extends

theorem Typed.observeEach (hprogram : program.Regular) (h : Typed program s)
    {ids : List ExprId} {channels result : Table ExprId String}
    (hrun : Session.observeEach program ids channels s = .ok result s') :
    Leads program s s' := by
  induction ids generalizing s channels with
  | nil =>
      obtain ⟨-, rfl⟩ := pure_eq_ok.mp hrun
      exact h.leads
  | cons id rest ih =>
      obtain ⟨port, s₁, hlower, hafter⟩ := bind_eq_ok.mp hrun
      obtain ⟨_, s₂, hexpose, hrest⟩ := bind_eq_ok.mp hafter
      obtain ⟨hleads₁, -⟩ := h.lower hprogram hlower
      have hleads₂ := hleads₁.typed.expose hexpose
      exact hleads₁.trans (hleads₂.trans (ih hleads₂.typed hrest))

/-- All ports of a table are outputs for booleans. -/
def Booleans {κ : Type} [DecidableEq κ] (f : Fragment α) (ports : Table κ PortId) : Prop :=
  ∀ k q, ports.get? k = some q → f.Offers q .boolean

omit [Scalar α] in
theorem booleans_empty {κ : Type} [DecidableEq κ] (f : Fragment α) :
    Booleans f (Table.empty : Table κ PortId) := by
  intro k q hq
  simp at hq

omit [Scalar α] in
theorem Booleans.extend {κ : Type} [DecidableEq κ] {f g : Fragment α} (hg : f.Extends g)
    {ports : Table κ PortId} (h : Booleans f ports) : Booleans g ports :=
  fun k q hq => (h k q hq).extend hg

omit [Scalar α] in
theorem Booleans.insert {κ : Type} [DecidableEq κ] {f : Fragment α} {ports : Table κ PortId}
    (h : Booleans f ports) {q : PortId} (hq : f.Offers q .boolean) (k : κ) :
    Booleans f (ports.insert k q) := by
  intro j r hr
  rcases Table.get?_insert_cases hr with ⟨rfl, rfl⟩ | hold
  · exact hq
  · exact h j r hold

theorem Typed.aggregateStates (h : Typed program s) {registry : Registry}
    (hregistry : s.fragment.Signals registry) {states : List State}
    {ports result : Table State PortId} (hports : Booleans s.fragment ports)
    (hrun : Session.aggregateStates registry states ports s = .ok result s') :
    Leads program s s' ∧ Booleans s'.fragment result := by
  induction states generalizing s ports with
  | nil =>
      obtain ⟨rfl, rfl⟩ := pure_eq_ok.mp hrun
      exact ⟨h.leads, hports⟩
  | cons state rest ih =>
      obtain ⟨port, s₁, hany, hrest⟩ := bind_eq_ok.mp hrun
      obtain ⟨hleads₁, hport⟩ := h.anyOf (hregistry.statePorts state) hany
      obtain ⟨hleads₂, hresult⟩ := ih hleads₁.typed (hregistry.extend hleads₁.extends)
        ((hports.extend hleads₁.extends).insert hport state) hrest
      exact ⟨hleads₁.trans hleads₂, hresult⟩

theorem Typed.aggregateClasses (h : Typed program s) {registry : Registry}
    (hregistry : s.fragment.Signals registry) {classes : List ExceptionClass}
    {ports result : Table ExceptionClass PortId} (hports : Booleans s.fragment ports)
    (hrun : Session.aggregateClasses registry classes ports s = .ok result s') :
    Leads program s s' ∧ Booleans s'.fragment result := by
  induction classes generalizing s ports with
  | nil =>
      obtain ⟨rfl, rfl⟩ := pure_eq_ok.mp hrun
      exact ⟨h.leads, hports⟩
  | cons c rest ih =>
      rw [Session.aggregateClasses] at hrun
      by_cases hcontains : ports.contains c = true
      · rw [if_pos hcontains] at hrun
        exact ih h hregistry hports hrun
      · rw [if_neg hcontains] at hrun
        obtain ⟨port, s₁, hany, hrest⟩ := bind_eq_ok.mp hrun
        obtain ⟨hleads₁, hport⟩ := h.anyOf (hregistry.exceptionPorts c) hany
        obtain ⟨hleads₂, hresult⟩ := ih hleads₁.typed (hregistry.extend hleads₁.extends)
          ((hports.extend hleads₁.extends).insert hport c) hrest
        exact ⟨hleads₁.trans hleads₂, hresult⟩

/-! ### Whole compilations -/

/-- What is compiled leaves boolean signals, if it has any. -/
theorem Typed.lowerTarget (hprogram : program.Regular) (h : Typed program s) {target : Target α}
    (htarget : target.Built program.pool) {result : PortId ⊕ ActionPorts}
    (hrun : Session.lowerTarget program target s = .ok result s') :
    Leads program s s' ∧ ∀ ports, result = .inr ports → ports.Booleans s'.fragment := by
  cases target with
  | expr id =>
      obtain ⟨port, s₁, hlower, hafter⟩ := bind_eq_ok.mp hrun
      obtain ⟨_, s₂, hexpose, hafter⟩ := bind_eq_ok.mp hafter
      obtain ⟨rfl, rfl⟩ := pure_eq_ok.mp hafter
      obtain ⟨hleads, -⟩ := h.lower hprogram hlower
      exact ⟨hleads.trans (hleads.typed.expose hexpose), by simp⟩
  | action a =>
      rw [Session.lowerTarget] at hrun
      obtain ⟨s₁, hramps, hafter⟩ := ramps_eq_ok hrun
      have hleads₁ := h.ramps hramps
      obtain ⟨ports, s₂, haction, hafter⟩ := bind_eq_ok.mp hafter
      obtain ⟨rfl, rfl⟩ := pure_eq_ok.mp hafter
      obtain ⟨hleads₂, hbooleans⟩ := hleads₁.typed.lowerAction hprogram htarget.typed haction
      exact ⟨hleads₁.trans hleads₂, by rintro _ ⟨⟩; exact hbooleans⟩
  | command c =>
      obtain ⟨ports, s₁, hcommand, hafter⟩ := bind_eq_ok.mp hrun
      obtain ⟨rfl, rfl⟩ := pure_eq_ok.mp hafter
      obtain ⟨hleads, hbooleans⟩ := h.lowerCommand hprogram htarget.typed hcommand
      exact ⟨hleads, by rintro _ ⟨⟩; exact hbooleans⟩

theorem Typed.publish (h : Typed program s) {target : PortId ⊕ ActionPorts}
    (htarget : ∀ ports, target = .inr ports → ports.Booleans s.fragment) {u : Unit}
    (hrun : Session.publish target s = .ok u s') : Leads program s s' := by
  cases target with
  | inl port =>
      obtain ⟨-, rfl⟩ := pure_eq_ok.mp hrun
      exact h.leads
  | inr ports =>
      obtain ⟨_, s₁, hexpose, hregister⟩ := bind_eq_ok.mp hrun
      have hleads := h.exposeEach hexpose
      have hsignals := (htarget ports rfl).signals.extend hleads.extends
      exact hleads.trans (hleads.typed.registerEach hsignals hregister)

/-- **A compiled network is typed**, its fragment is complete, and the ports
of its states and exceptions are outputs for booleans. -/
theorem compile_typed (hprogram : program.Regular) {request : Request α}
    (htarget : request.target.Built program.pool) {net : CompiledNet α}
    (hrun : Session.compile program request empty = .ok net s') :
    net.fragment.WellFormed ∧ net.fragment.Typed ∧ net.fragment.validate = .ok () ∧
      ∀ signal q, net.port? signal = some q → net.fragment.Offers q .boolean := by
  obtain ⟨_, _, _, _, _, _, hlower, hpublish, hobserve, hstates, hexceptions, hfinish, -⟩ :=
    compile_stages hrun
  obtain ⟨hleads₁, hbooleans⟩ := (typed_empty program).lowerTarget hprogram htarget hlower
  have hleads₂ := hleads₁.typed.publish hbooleans hpublish
  have hleads₃ := hleads₂.typed.observeEach hprogram hobserve
  have hsignals := hleads₃.typed.signals
  obtain ⟨hleads₄, hstatePorts⟩ :=
    hleads₃.typed.aggregateStates hsignals (booleans_empty _) hstates
  obtain ⟨hleads₅, hclassPorts⟩ := hleads₄.typed.aggregateClasses
    (hsignals.extend hleads₄.extends) (booleans_empty _) hexceptions
  obtain ⟨hleads₆, hfragment, hvalid⟩ := hleads₅.typed.finish hprogram hfinish
  rw [← hfragment]
  refine ⟨hleads₆.typed.wellFormed, hleads₆.typed.blocks, hfragment ▸ hvalid, ?_⟩
  intro signal q hq
  cases signal with
  | state state => exact (hstatePorts state q hq).extend (hleads₅.trans hleads₆).extends
  | exception c => exact (hclassPorts c q hq).extend hleads₆.extends

end Session

namespace Compiler

/-- **Type soundness of compiled networks.**  Let an expression, or an action
or a command that was built by calls, be compiled with the rules of the
library, and let the network be fed values of the kinds that it reads, with
slots whose blocks agree on their kinds.  Then the network can be started with
any finite positive period, and every cycle of a run

* is completed, and every output port carries a value of its kind afterwards,
  a boolean if the port stands for a state or an exception, or
* stops at a division of integers that have no quotient.

Cycles that fail do not end the run. -/
theorem compile_sound (hranged : Scalar.Ranged α) {settings : Settings α} {pool : Pool α}
    (hpool : pool.Reachable) {host : Host α} {request : Request α} {net : CompiledNet α}
    (hnet : Compiler.compile ⟨.standard, settings⟩ pool host request = .ok net)
    (htarget : request.target.Built pool) (hslots : net.fragment.SlotsAgree) {period : α}
    (hfinite : Scalar.isFinite period = true) (hpositive : Scalar.lt 0 period = true)
    {x : Nat → Stimulus α} (hx : ∀ n, (x n).Fits net.fragment) :
    ∃ s₀, Simulator.start net.fragment period = .ok s₀ ∧ ∀ n,
      (∃ s, Simulator.step ((Simulator.carryOn x n s₀).feed (x n)) = .ok () s ∧
        Simulator.Complete net.fragment s ∧
        ∀ signal q, net.port? signal = some q → ∃ b, s.value? q = some (.boolean b)) ∨
      ∃ e s, Simulator.step ((Simulator.carryOn x n s₀).feed (x n)) = .error e s ∧
        Simulator.NoQuotient net.fragment e := by
  obtain ⟨_, hrun⟩ := compile_eq_ok hnet
  have hprogram : (⟨pool, .standard, request.parameters, settings, host⟩ : Program α).Regular :=
    ⟨hpool.wellFormed, rfl⟩
  obtain ⟨hwell, htyped, hvalid, hsignals⟩ := Session.compile_typed hprogram htarget hrun
  obtain ⟨s₀, hstart⟩ := Simulator.start_total hvalid hfinite hpositive
  obtain ⟨-, hfed, -⟩ := Simulator.start_eq_ok hstart
  refine ⟨s₀, hstart, ?_⟩
  intro n
  have htyped₀ := Simulator.typed_start hwell hfinite hpositive hstart
  have hbefore := htyped₀.carryOn hranged hwell htyped hslots hfed hx n
  obtain ⟨-, hends⟩ := (hbefore.feed (hx n)).step hranged hwell htyped hslots hfed
  rcases hends with ⟨s, hstep, hcomplete⟩ | hfails
  · exact Or.inl ⟨s, hstep, hcomplete, fun signal q hq =>
      Simulator.Complete.boolean hcomplete (hsignals signal q hq)⟩
  · exact Or.inr hfails

end Compiler

/-- A pool with a position to ramp from, one to ramp to, and the position that
an earlier command ramped to. -/
def Sample.ends : Pool Float :=
  Pool.performAll [.constant (.double 0), .input "target" .double .global, .persist 1 .global,
    .persisted 0] { folding := true }

/-- A command that ramps to the target and keeps it. -/
def Sample.go : Building Float (Command Float) := do
  let ramp ← Action.ramp "ramp" "x" 0 1 1
  let command ← Command.new "go" .global ramp (some 0.5)
  return command.persisting 0

/-- Compile the command, and observe the position of the earlier one. -/
def Sample.compileGo (p : Pool Float) (c : Command Float) :
    Except (CompileError Float) (CompiledNet Float) :=
  Compiler.compile ⟨.standard, .standard⟩ p (.ofTables {} {})
    { target := .command c, parameters := Parameters.bind {} 0 7, observed := [2] }

/-- Cancellation is requested in the third cycle. -/
def Sample.cancelled (n : Nat) : Stimulus Float :=
  if n = 2 then { inputs := [("go.cancel", .boolean true)] }
  else { inputs := [("target", .double 1)], slots := [(7, .double 3)] }

/-- The command can be compiled to a network that fits the stimuli, has a port
for being completed, and runs a first cycle. -/
def Sample.goRuns : Bool :=
  match Sample.go Sample.ends with
  | .error _ _ => false
  | .ok c p =>
    match Sample.compileGo p c with
    | .error _ => false
    | .ok net =>
      decide (net.fragment.SlotsAgree ∧ (Sample.cancelled 2).Fits net.fragment ∧
        (Sample.cancelled 0).Fits net.fragment) &&
      (net.port? (.state .completed)).isSome &&
      match Simulator.start net.fragment 0.25 with
      | .error _ => false
      | .ok s₀ =>
        match Simulator.step (s₀.feed (Sample.cancelled 0)) with
        | .error _ _ => false
        | .ok _ _ => true

theorem Compiler.go_sound : ∃ c p net s₀ s q b, Sample.go Sample.ends = .ok c p ∧
    Sample.compileGo p c = .ok net ∧ Simulator.start net.fragment 0.25 = .ok s₀ ∧
    Simulator.step (s₀.feed (Sample.cancelled 0)) = .ok () s ∧
    net.port? (.state .completed) = some q ∧ s.value? q = some (.boolean b) := by
  have hruns : Sample.goRuns = true := by decide +kernel
  unfold Sample.goRuns at hruns
  cases hgo : Sample.go Sample.ends with
  | error e p => simp [hgo] at hruns
  | ok c p =>
      simp only [hgo] at hruns
      cases hnet : Sample.compileGo p c with
      | error e => simp [hnet] at hruns
      | ok net =>
          simp only [hnet, Bool.and_eq_true, decide_eq_true_eq] at hruns
          obtain ⟨⟨⟨hslots, hthird, hothers⟩, hcompleted⟩, hcycle⟩ := hruns
          obtain ⟨q, hq⟩ := Option.isSome_iff_exists.mp hcompleted
          have hfits : ∀ n, (Sample.cancelled n).Fits net.fragment := by
            intro n
            by_cases hn : n = 2
            · subst hn
              exact hthird
            · rw [show Sample.cancelled n = Sample.cancelled 0 by simp [Sample.cancelled, hn]]
              exact hothers
          have hends : Sample.ends.Reachable := ⟨true, _, rfl⟩
          obtain ⟨ramp, p₁, hramp, hafter⟩ := bind_eq_ok.mp hgo
          obtain ⟨command, p₂, hcommand, hafter⟩ := bind_eq_ok.mp hafter
          obtain ⟨rfl, rfl⟩ := pure_eq_ok.mp hafter
          have hp₁ : p₁.Reachable := by
            have hfollows := Action.ramp_composed "ramp" "x" 0 1 (1 : Float) Sample.ends
            rw [hramp] at hfollows
            exact hends.follows hfollows
          have hp₂ : p₂.Reachable := by
            have hfollows := Command.new_composed "go" .global ramp (some (0.5 : Float)) p₁
            rw [hcommand] at hfollows
            exact hp₁.follows hfollows
          have hbuilt : (command.persisting 0).Built p₂ :=
            .persisting (.new hp₁ (.ramp hends hramp) hcommand) 0
          obtain ⟨s₀, hstart, hrun⟩ := Compiler.compile_sound Double.ranged hp₂ hnet hbuilt hslots
            (by decide +kernel : Scalar.isFinite (0.25 : Float) = true) (by decide +kernel) hfits
          rcases hrun 0 with ⟨s, hstep, -, hsignals⟩ | ⟨e, s, hstep, -⟩
          · obtain ⟨b, hb⟩ := hsignals _ q hq
            exact ⟨_, _, net, s₀, s, q, b, rfl, hnet, hstart, hstep, hq, hb⟩
          · have hzero : Simulator.step (s₀.feed (Sample.cancelled 0)) = .error e s := hstep
            simp [hstart, hzero] at hcycle

end SignalNet
