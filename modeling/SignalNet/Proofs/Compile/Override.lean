import SignalNet.Proofs.Compile.Cancellation
import SignalNet.Proofs.Folding.Script
import SignalNet.Proofs.Motion.Plain

/-!
# The override of a command

What a compiled command does with its speed, from cycle to cycle.  Scalars
are left abstract but for the sign of zero: `Scalar.ZeroLaws` is all that is
asked of their arithmetic.

* `Command.BuiltWith` are the commands that come from calls, with the override
  that the last call gave.
* `Session.Serves.recurs` is one cycle of a run: the scale, the override that
  is put out and the state of being cancelled.
* `Compiler.command_scale_recurs` is the result for compiled commands.
-/

namespace SignalNet

open Computing

variable {α : Type} [Scalar α]

/-! ### Overrides -/

omit [Scalar α] in
/-- What is no literal in a pool was none in an earlier one. -/
theorem Pool.Extends.literal?_eq_none {p q : Pool α} (hq : p.Extends q) {id : ExprId}
    (h : q.literal? id = none) : p.literal? id = none := by
  by_contra hsome
  obtain ⟨v, hv⟩ := Option.ne_none_iff_exists'.mp hsome
  rw [hq.literal? hv] at h
  cases h

namespace Command

open Pool

/-- Commands that come from the calls that make commands, with the override of
the user in the last call that gives one. -/
inductive BuiltWith : Pool α → Command α → Option ExprId → Prop
  | new {p q : Pool α} (hp : p.Reachable) {name : String} {scope : Scope} {action : Action α}
      (haction : action.Built p) {deceleration : Option α} {c : Command α}
      (h : Command.new name scope action deceleration p = .ok c q) : BuiltWith q c none
  | withOverride {p q : Pool α} (hp : p.Reachable) {c c' : Command α} {earlier : Option ExprId}
      (hc : BuiltWith p c earlier) {speed : ExprId} (h : c.withOverride speed p = .ok c' q) :
      BuiltWith q c' (some speed)
  | on {p : Pool α} {c : Command α} {speed : Option ExprId} (hc : BuiltWith p c speed)
      (trigger : StateExpr α) (reaction : Reaction) : BuiltWith p (c.on trigger reaction) speed
  | persisting {p : Pool α} {c : Command α} {speed : Option ExprId} (hc : BuiltWith p c speed)
      (handle : Nat) : BuiltWith p (c.persisting handle) speed
  | later {p q : Pool α} {c : Command α} {speed : Option ExprId} (h : BuiltWith p c speed)
      (hp : p.Reachable) (hq : p.Follows q) : BuiltWith q c speed

theorem BuiltWith.built {p : Pool α} {c : Command α} {speed : Option ExprId}
    (h : c.BuiltWith p speed) : c.Built p := by
  induction h with
  | new hp haction h => exact .new hp haction h
  | withOverride hp _ h ih => exact .withOverride hp ih h
  | on _ trigger reaction ih => exact ih.on trigger reaction
  | persisting _ handle ih => exact ih.persisting handle
  | later _ hp hq ih => exact ih.later hp hq

/-- Every command that was built has been given some last override, or none. -/
theorem Built.builtWith {p : Pool α} {c : Command α} (h : c.Built p) :
    ∃ speed, c.BuiltWith p speed := by
  induction h with
  | new hp haction h => exact ⟨_, .new hp haction h⟩
  | withOverride hp _ h ih =>
      obtain ⟨_, hc⟩ := ih
      exact ⟨_, .withOverride hp hc h⟩
  | on _ trigger reaction ih =>
      obtain ⟨_, hc⟩ := ih
      exact ⟨_, hc.on trigger reaction⟩
  | persisting _ handle ih =>
      obtain ⟨_, hc⟩ := ih
      exact ⟨_, hc.persisting handle⟩
  | later _ hp hq ih =>
      obtain ⟨_, hc⟩ := ih
      exact ⟨_, hc.later hp hq⟩

/-- What is put out as override: the scale, times what the user asks for
unless that is a literal. -/
def Overrides (p : Pool α) (c : Command α) : Option ExprId → Prop
  | none => c.effective = c.scale
  | some speed => p.literal? speed = none → p.Holds c.effective (.binary .mul speed c.scale)

theorem Overrides.extend {p q : Pool α} (hq : p.Extends q) {c : Command α}
    {speed : Option ExprId} (h : c.Overrides p speed) : c.Overrides q speed := by
  cases speed with
  | none => exact h
  | some speed => exact fun hliteral => (h (hq.literal?_eq_none hliteral)).extend hq

/-- **The override of a command that was built.** -/
theorem BuiltWith.overrides {p : Pool α} {c : Command α} {speed : Option ExprId}
    (h : c.BuiltWith p speed) : c.Overrides p speed := by
  induction h with
  | new hp haction h => exact (new_made h).2
  | @withOverride p q hp c c' earlier hc speed h ih =>
      obtain ⟨effective, hbuild, rfl⟩ := withOverride_eq_ok h
      obtain ⟨_, -, hq⟩ := build_yields hp.wellFormed hbuild
      intro hliteral
      have hnone := hq.extends.literal?_eq_none hliteral
      obtain ⟨parts, hscaled⟩ := hc.built.scaled
      have hscale : p.literal? c.scale = none := hscaled.scale.literal?_eq_none rfl
      exact build_holds hp.wellFormed (simplify_binary hnone hscale) hbuild
  | on _ trigger reaction ih => exact ih
  | persisting _ handle ih => exact ih
  | later _ hp hq ih => exact ih.extend (hp.extends_of_follows hq)

end Command

/-! ### One cycle -/

namespace Simulator

variable {s s' : Simulator α} {q : PortId}

/-- A conjunction of two ports carries a boolean, and so do they. -/
theorem Cycle.applies_both (h : Cycle s s') (hf : s.fragment.WellFormed) {x y : PortId}
    (hq : s.fragment.Applies q .allOf [x, y]) {b : Bool} (hy : s'.value? y = some (.boolean b)) :
    ∃ a, s'.value? x = some (.boolean a) ∧ s'.value? q = some (.boolean (a && b)) := by
  obtain ⟨kind, hmakes⟩ := hq
  obtain ⟨_, hports, hvalue⟩ := h.connective hf hmakes rfl
  obtain ⟨a, _, hx, hrest, rfl⟩ := List.forall₂_cons_left_iff.mp hports
  obtain _ | ⟨hw, _ | _⟩ := hrest
  rw [hy] at hw
  cases hw
  refine ⟨a, hx, ?_⟩
  rw [hvalue]
  simp

end Simulator

/-! ### Runs -/

namespace Scalar.ZeroLaws

variable (laws : ZeroLaws α)

include laws

/-- Sharing changes a step of the scale by no more than the sign of zero. -/
theorem same_step {k : ScaleConstants α} {deceleration : α} (hk : k.Shares deceleration)
    (hpositive : lt 0 deceleration = true) {period rate : α} (hrate : k.IsRate period rate)
    (a : α) (requested : Bool) :
    same (limit (a - if requested then rate else k.stopped) k.stopped k.full)
      (limit (a - if requested then period / deceleration else 0) 0 1) = true := by
  have hseconds : k.seconds = deceleration := laws.eq_of_positive hpositive hk.seconds
  have hquotient : rate = period / deceleration := by
    rcases hrate with rfl | ⟨rfl, hone⟩
    · rw [hseconds]
    · -- The division was left out because the divisor is one.
      rw [← hseconds, laws.eq_one (laws.same_of_eqv hone), laws.div_one]
  refine laws.same_limit ?_ hk.stopped hk.full
  cases requested with
  | true =>
      rw [if_pos rfl, if_pos rfl, hquotient]
      exact same_iff.mpr rfl
  | false =>
      rw [if_neg Bool.false_ne_true, if_neg Bool.false_ne_true]
      exact laws.same_sub a hk.stopped

end Scalar.ZeroLaws

namespace Session

variable {program : Program α} {session : Session α} {c : Command α} {requests : List PortId}
  {ports : CommandPorts}

open Simulator in
/-- **A cycle of a run of a command**: the scale comes down from that of the
cycle before if cancellation was requested then, and the command is cancelled
when it has come down while cancellation is requested. -/
theorem Serves.recurs (laws : Scalar.ZeroLaws α)
    (hrules : program.rules.KeepAll Form.inScale) (h : Wired program session)
    (hresolved : Resolved program session) {parts : ScaleParts}
    (hscaled : c.Scaled program.pool parts) (hserves : Serves c requests ports session)
    {period : α} {s₀ : Simulator α} (hstart : start session.fragment period = .ok s₀)
    {x : Nat → Stimulus α} {n : Nat} {s : Simulator α} (hdrive : drive x (n + 1) s₀ = .ok s) :
    ∃ v a, s.value? ports.scale = some (.double v) ∧
      before (some 1) (numberIn x s₀ ports.scale) n = some a ∧
      Scalar.same v (Scalar.limit
        (a - if before false (requestedIn x s₀ requests) n then period / c.deceleration else 0)
        0 1) = true ∧
      s.boolean? ports.cancelled = some (requestedIn x s₀ requests n && Scalar.le v 0) := by
  have hf := h.wellFormed
  obtain ⟨k, loop, hshares, hscales⟩ := hserves.toCancels.loops hrules h hresolved hscaled
  obtain ⟨a, rate, ha, hrate, hv⟩ := hscales.recurs hf hserves.joins hstart hdrive
  rw [laws.eq_one hshares.initial] at ha
  refine ⟨_, a, hv, ha, laws.same_step hshares hscaled.positive hrate a _, ?_⟩
  obtain ⟨_, -, hfragment, -, -, hcycle, -⟩ := drive_last hf hstart hdrive
  have hf' := hfragment.symm ▸ hf
  -- The scale is compared with a constant that may be the other zero.
  obtain ⟨_, hu, hmakes⟩ := h.constants hserves.still
  obtain ⟨zero, rfl, hzero⟩ := Value.eq_double hu
  have happlies : session.fragment.Applies ports.still (.constant (.double zero)) [] := ⟨_, hmakes⟩
  have hstill := hcycle.applies_constant hf' (hfragment.symm ▸ happlies)
  have hstopped := hcycle.applies_lessEq hf' (hfragment.symm ▸ hserves.stopped) hv hstill
  obtain ⟨b, hb, hcancelled⟩ :=
    hcycle.applies_both hf' (hfragment.symm ▸ hserves.cancelled) hstopped
  have hrequested : requestedIn x s₀ requests n = b := by
    rw [hcycle.joins hf' (hfragment.symm ▸ hserves.joins) hb, requestedIn, hdrive]
  rw [hrequested, boolean?, hcancelled, laws.le_eq (Scalar.same_iff.mpr rfl) hzero]
  rfl

open Simulator in
/-- **The override that is put out** is the scale, times the override of the
user. -/
theorem Serves.override (hrules : program.rules.KeepAll Form.inScale)
    (h : Wired program session) (hserves : Serves c requests ports session)
    {speed : Option ExprId} (hover : c.Overrides program.pool speed)
    {period : α} {s₀ : Simulator α} (hstart : start session.fragment period = .ok s₀)
    {x : Nat → Stimulus α} {n : Nat} {s : Simulator α} (hdrive : drive x (n + 1) s₀ = .ok s)
    {v : α} (hv : s.value? ports.scale = some (.double v)) :
    (speed = none → s.value? ports.effective = some (.double v)) ∧
    ∀ e, speed = some e → program.pool.literal? e = none →
      ∃ p w r, session.lowered.get? e = some p ∧ s.value? p = some w ∧
        BinaryOp.mul.eval? w (.double v) = some r ∧ s.value? ports.effective = some r := by
  constructor
  · rintro rfl
    have heffective := hserves.effective
    rw [show c.effective = c.scale from hover, hserves.scale] at heffective
    rw [← Option.some.inj heffective, hv]
  · rintro e rfl hliteral
    obtain ⟨_, ⟨kind, hmakes⟩, _ | ⟨hspeed, _ | ⟨hscale, _ | _⟩⟩⟩ :=
      h.applies_kept (hrules rfl) hserves.effective (hover hliteral) rfl rfl
    rw [hserves.scale] at hscale
    cases hscale
    obtain ⟨_, -, hfragment, -, -, hcycle, -⟩ := drive_last h.wellFormed hstart hdrive
    obtain ⟨args, r, m, memory, hargs, hreact, hr⟩ :=
      hcycle.makes (hfragment.symm ▸ h.wellFormed) (hfragment.symm ▸ hmakes) rfl
    obtain ⟨w, _, hw, hrest, rfl⟩ := List.forall₂_cons_left_iff.mp hargs
    obtain ⟨u, _, hu, hnil, rfl⟩ := List.forall₂_cons_left_iff.mp hrest
    cases hnil
    rw [hv] at hu
    cases hu
    obtain ⟨hproduct, -⟩ := operator_eq_ok.mp hreact
    exact ⟨_, w, r, hspeed, hw, hproduct, hr⟩

end Session

/-! ### Compiled commands -/

/-- Build a command, compile it by some rules for a program without devices, run
it, and test what has come out. -/
def Sample.commandRuns {β : Type} (rules : Rules α) (build : Building α (β × Command α))
    (period : α) (x : Nat → Stimulus α) (n : Nat)
    (test : β → Command α → Pool α → CompiledNet α → Session α → Simulator α → Simulator α → Bool) :
    Bool :=
  match build { folding := true } with
  | .error _ _ => false
  | .ok (b, c) p =>
    match Compiler.compile ⟨rules, .standard⟩ p .offline { target := .command c },
        Session.compile ⟨p, rules, {}, .standard, .offline⟩ { target := .command c } .empty with
    | .ok net, .ok _ session =>
      match Simulator.start net.fragment period with
      | .error _ => false
      | .ok s₀ =>
        match Simulator.drive x n s₀ with
        | .error _ => false
        | .ok s => test b c p net session s₀ s
    | _, _ => false

theorem Sample.commandRuns_eq_true {β : Type} {rules : Rules α}
    {build : Building α (β × Command α)} {period : α} {x : Nat → Stimulus α} {n : Nat}
    {test : β → Command α → Pool α → CompiledNet α → Session α → Simulator α → Simulator α → Bool}
    (h : Sample.commandRuns rules build period x n test = true) :
    ∃ b c p net s₀ s, build { folding := true } = .ok (b, c) p ∧
      Compiler.compile ⟨rules, .standard⟩ p .offline { target := .command c } = .ok net ∧
      Simulator.start net.fragment period = .ok s₀ ∧ Simulator.drive x n s₀ = .ok s ∧
      ∀ session, Session.compile ⟨p, rules, {}, .standard, .offline⟩ { target := .command c }
        .empty = .ok net session → test b c p net session s₀ s = true := by
  unfold Sample.commandRuns at h
  split at h
  · cases h
  · next b c p hbuild =>
    split at h
    · next net _ session hnet hsession =>
      split at h
      · cases h
      · next s₀ hstart =>
        split at h
        · cases h
        · next s hdrive =>
          refine ⟨b, c, p, net, s₀, s, hbuild, hnet, hstart, hdrive, ?_⟩
          intro session' hsession'
          rw [hsession] at hsession'
          cases hsession'
          exact h
    · cases h

/-- The ports that request cancellation of a command. -/
def Sample.cancels (rules : Rules α) (p : Pool α) (c : Command α) : List PortId :=
  let program : Program α := ⟨p, rules, {}, .standard, .offline⟩
  match Session.lowerCancelInput program c .empty with
  | .error _ _ => []
  | .ok (action, input) before =>
    match Session.lowerTriggers program action c.handlers before with
    | .error _ _ => []
    | .ok found _ => input :: Session.cancelPorts c.handlers found

end SignalNet
