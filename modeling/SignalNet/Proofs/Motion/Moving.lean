import SignalNet.Proofs.Motion.Slowing

/-!
# How a ramp moves

A network can hold the loop of a ramp (`Fragment.Ramps`): its position is that
of the cycle before, or the start in the first cycle, plus what is left of the
way to the target, kept within a stride.  The stride is the distance of a
cycle at full speed times an override.

* `Fragment.Ramps.cycle` is the step: what one cycle makes of the position.
  All values on the way are doubles, since the cycle would fail otherwise.
* `Fragment.Ramps.recurs` puts the cycles of a run together.
-/

namespace SignalNet

open Computing

variable {α : Type} [Scalar α]

/-! ### Operators on doubles -/

/-- A product with a double on its left is one of doubles. -/
theorem BinaryOp.mul_eval?_double {a : α} {w v : Value α}
    (h : BinaryOp.mul.eval? (.double a) w = some v) :
    ∃ b, w = .double b ∧ v = .double (a * b) := by
  cases w with
  | double b =>
      cases h
      exact ⟨b, rfl, rfl⟩
  | _ => cases h

/-- A difference that is a double is one of doubles. -/
theorem BinaryOp.sub_eval?_double {u w : Value α} {c : α}
    (h : BinaryOp.sub.eval? u w = some (.double c)) :
    ∃ a b, u = .double a ∧ w = .double b ∧ c = a - b := by
  cases u with
  | double a =>
      cases w with
      | double b =>
          cases h
          exact ⟨a, b, rfl, rfl, rfl⟩
      | _ => cases h
  | array xs =>
      cases w with
      | array ys =>
          simp only [BinaryOp.eval?] at h
          split at h <;> cases h
      | _ => cases h
  | _ => cases w <;> cases h

/-- What is kept within doubles is a double. -/
theorem Value.limit?_double {u v : Value α} {lower upper : α}
    (h : Value.limit? u (.double lower) (.double upper) = some v) :
    ∃ a, u = .double a ∧ v = .double (Scalar.limit a lower upper) := by
  cases u with
  | double a =>
      cases h
      exact ⟨a, rfl, rfl⟩
  | _ => cases h

/-! ### The loop in a network -/

/-- The ports of the loop of a ramp, beside its position. -/
structure RampPorts where
  origin : PortId
  started : PortId
  on : PortId
  previous : PortId
  /-- A copy of the position, for the next cycle. -/
  state : PortId
  left : PortId
  delta : PortId
  back : PortId
  step : PortId
  length : PortId
  period : PortId
  /-- A copy of the override. -/
  scale : PortId
  remaining : PortId
  distance : PortId
  tolerance : PortId

/-- How far a ramp moves in a cycle at full speed.  The rate may stand on
either side, and be left out if it is one. -/
def IsLength (rate period length : α) : Prop :=
  length = rate * period ∨ length = period * rate ∨ length = period ∧ Scalar.eqv rate 1 = true

namespace Fragment

/-- The port `position` carries the position of a ramp, and `completed` says that
the ramp has come close to its target. -/
structure Ramps (f : Fragment α) (rate tolerance : α)
    (position start target override completed : PortId) (ports : RampPorts) : Prop where
  next : f.Applies position (.binary .add) [ports.origin, ports.delta]
  delta : f.Applies ports.delta .limit [ports.left, ports.back, ports.step]
  left : f.Applies ports.left (.binary .sub) [target, ports.origin]
  origin : f.Applies ports.origin .select [ports.started, ports.previous, start]
  started : f.Applies ports.started (.pre (.boolean false)) [ports.on]
  on : f.Applies ports.on (.constant (.boolean true)) []
  previous : ∃ initial, f.Applies ports.previous (.pre initial) [ports.state]
  state : f.Applies ports.state .identity [position]
  back : f.Applies ports.back (.unary .neg) [ports.step]
  step : f.Applies ports.step (.binary .mul) [ports.length, ports.scale]
  scale : f.Applies ports.scale .identity [override]
  length : (∃ q, (f.Applies ports.length (.binary .mul) [q, ports.period] ∨
      f.Applies ports.length (.binary .mul) [ports.period, q]) ∧
      f.Applies q (.constant (.double rate)) []) ∨
    ports.length = ports.period ∧ Scalar.eqv rate 1 = true
  period : f.Applies ports.period (.clock .period) []
  remaining : f.Applies ports.remaining (.binary .sub) [target, position]
  distance : f.Applies ports.distance (.unary .abs) [ports.remaining]
  tolerance : f.Applies ports.tolerance (.constant (.double tolerance)) []
  completed : f.Applies completed (.compare .lessEq) [ports.distance, ports.tolerance]

end Fragment

/-! ### One cycle -/

namespace Simulator

variable {s s' : Simulator α} {q : PortId}

/-- The operands of an operator carry values that it accepts. -/
theorem Cycle.applies_binary (h : Cycle s s') (hf : s.fragment.WellFormed) {op : BinaryOp}
    {x y : PortId} (hq : s.fragment.Applies q (.binary op) [x, y]) :
    ∃ u w v, s'.value? x = some u ∧ s'.value? y = some w ∧ op.eval? u w = some v ∧
      s'.value? q = some v := by
  obtain ⟨kind, hmakes⟩ := hq
  obtain ⟨args, v, m, memory, hargs, hreact, hv⟩ := h.makes hf hmakes rfl
  obtain _ | ⟨hu, _ | ⟨hw, _ | _⟩⟩ := hargs
  obtain ⟨heval, -⟩ := operator_eq_ok.mp hreact
  exact ⟨_, _, v, hu, hw, heval, hv⟩

/-- The operands of a limiter carry values that it accepts. -/
theorem Cycle.applies_limit (h : Cycle s s') (hf : s.fragment.WellFormed) {x lower upper : PortId}
    (hq : s.fragment.Applies q .limit [x, lower, upper]) {lo hi : α}
    (hlower : s'.value? lower = some (.double lo)) (hupper : s'.value? upper = some (.double hi)) :
    ∃ a, s'.value? x = some (.double a) ∧
      s'.value? q = some (.double (Scalar.limit a lo hi)) := by
  obtain ⟨kind, hmakes⟩ := hq
  obtain ⟨args, v, m, memory, hargs, hreact, hv⟩ := h.makes hf hmakes rfl
  obtain _ | ⟨hu, _ | ⟨hw, _ | ⟨hz, _ | _⟩⟩⟩ := hargs
  rw [hlower] at hw
  cases hw
  rw [hupper] at hz
  cases hz
  obtain ⟨hlimit, -⟩ := operator_eq_ok.mp hreact
  obtain ⟨a, rfl, rfl⟩ := Value.limit?_double hlimit
  exact ⟨a, hu, hv⟩

/-- A selection carries one of its operands. -/
theorem Cycle.applies_select (h : Cycle s s') (hf : s.fragment.WellFormed)
    {condition ifTrue ifFalse : PortId}
    (hq : s.fragment.Applies q .select [condition, ifTrue, ifFalse]) {b : Bool}
    (hb : s'.value? condition = some (.boolean b)) :
    s'.value? q = if b then s'.value? ifTrue else s'.value? ifFalse := by
  obtain ⟨kind, hmakes⟩ := hq
  obtain ⟨args, v, m, memory, hargs, hreact, hv⟩ := h.makes hf hmakes rfl
  obtain _ | ⟨hu, _ | ⟨hw, _ | ⟨hz, _ | _⟩⟩⟩ := hargs
  obtain ⟨hselect, -⟩ := operator_eq_ok.mp hreact
  rw [hb] at hu
  cases hu
  rw [hv, hw, hz, ← hselect]
  cases b <;> rfl

end Simulator

open Simulator in
/-- How far a ramp moves in a cycle at full speed. -/
theorem Fragment.Ramps.cycle_length {s s' : Simulator α} (hcycle : Cycle s s')
    (hf : s.fragment.WellFormed) {rate tolerance : α}
    {next start target override completed : PortId} {ports : RampPorts}
    (h : s.fragment.Ramps rate tolerance next start target override completed ports) :
    ∃ length, IsLength rate s.around.period length ∧
      s'.value? ports.length = some (.double length) := by
  have hperiod := hcycle.applies_period hf h.period
  rcases h.length with ⟨q, hmul, hrate⟩ | ⟨heq, hone⟩
  · have hvalue := hcycle.applies_constant hf hrate
    rcases hmul with hmul | hmul
    · obtain ⟨_, _, v, m, hreact, hv⟩ :=
        hcycle.applies hf hmul rfl (.cons hvalue (.cons hperiod .nil))
      cases hreact
      exact ⟨_, Or.inl rfl, hv⟩
    · obtain ⟨_, _, v, m, hreact, hv⟩ :=
        hcycle.applies hf hmul rfl (.cons hperiod (.cons hvalue .nil))
      cases hreact
      exact ⟨_, Or.inr (Or.inl rfl), hv⟩
  · exact ⟨_, Or.inr (Or.inr ⟨rfl, hone⟩), heq ▸ hperiod⟩

open Simulator in
/-- **What one cycle makes of the position of a ramp.** -/
theorem Fragment.Ramps.cycle {s s' : Simulator α} (hcycle : Cycle s s')
    (hf : s.fragment.WellFormed) {rate tolerance : α}
    {next start target override completed : PortId} {ports : RampPorts}
    (h : s.fragment.Ramps rate tolerance next start target override completed ports) {b : Bool}
    (hb : s'.value? ports.started = some (.boolean b)) :
    ∃ origin goal speed length, IsLength rate s.around.period length ∧
      (if b then s'.value? ports.previous else s'.value? start) = some (.double origin) ∧
      s'.value? target = some (.double goal) ∧ s'.value? override = some (.double speed) ∧
      let position :=
        origin + Scalar.limit (goal - origin) (-(length * speed)) (length * speed)
      s'.value? next = some (.double position) ∧
        s'.value? completed =
          some (.boolean (Scalar.le (Scalar.abs (goal - position)) tolerance)) := by
  obtain ⟨length, hlength, hvalue⟩ := h.cycle_length hcycle hf
  obtain ⟨_, w, _, hlength', hscale, hmul, hstep⟩ := hcycle.applies_binary hf h.step
  rw [hvalue] at hlength'
  cases hlength'
  obtain ⟨speed, rfl, rfl⟩ := BinaryOp.mul_eval?_double hmul
  have hoverride := hcycle.applies_identity hf h.scale hscale
  obtain ⟨_, _, _, _, hneg, hback⟩ := hcycle.applies hf h.back rfl (.cons hstep .nil)
  cases hneg
  obtain ⟨left, hleft, hdelta⟩ := hcycle.applies_limit hf h.delta hback hstep
  obtain ⟨_, _, _, htarget, horigin, hsub, hleft'⟩ := hcycle.applies_binary hf h.left
  rw [hleft] at hleft'
  cases hleft'
  obtain ⟨goal, origin, rfl, rfl, rfl⟩ := BinaryOp.sub_eval?_double hsub
  obtain ⟨_, _, _, _, hadd, hnext⟩ :=
    hcycle.applies hf h.next rfl (.cons horigin (.cons hdelta .nil))
  cases hadd
  obtain ⟨_, _, _, _, hway, hremaining⟩ :=
    hcycle.applies hf h.remaining rfl (.cons htarget (.cons hnext .nil))
  cases hway
  obtain ⟨_, _, _, _, habs, hdistance⟩ := hcycle.applies hf h.distance rfl (.cons hremaining .nil)
  cases habs
  have htolerance := hcycle.applies_constant hf h.tolerance
  have hcompleted := hcycle.applies_lessEq hf h.completed hdistance htolerance
  rw [hcycle.applies_select hf h.origin hb] at horigin
  exact ⟨origin, goal, speed, length, hlength, horigin, htarget, hoverride, hnext, hcompleted⟩

/-! ### Runs -/

open Simulator in
/-- **A ramp from cycle to cycle.**  It sets out from its start in the first
cycle, and from where it has come in every later one. -/
theorem Fragment.Ramps.recurs {f : Fragment α} (hf : f.WellFormed) {rate tolerance : α}
    {next start target override completed : PortId} {ports : RampPorts}
    (h : f.Ramps rate tolerance next start target override completed ports) {period : α}
    {s₀ : Simulator α} (hstart : Simulator.start f period = .ok s₀) {x : Nat → Stimulus α}
    {n : Nat} {s : Simulator α} (hdrive : drive x (n + 1) s₀ = .ok s) :
    ∃ origin goal speed length, IsLength rate period length ∧
      before (s.double? start) (numberIn x s₀ next) n = some origin ∧
      s.value? target = some (.double goal) ∧ s.value? override = some (.double speed) ∧
      let position :=
        origin + Scalar.limit (goal - origin) (-(length * speed)) (length * speed)
      s.value? next = some (.double position) ∧
        s.boolean? completed = some (Scalar.le (Scalar.abs (goal - position)) tolerance) := by
  obtain ⟨_, -, hfragment, -, hperiod, hcycle, -⟩ := drive_last hf hstart hdrive
  have hf' := hfragment.symm ▸ hf
  have h' := hfragment.symm ▸ h
  obtain ⟨initial, hpre⟩ := h.previous
  obtain ⟨t, v, ht, hstarted, hv⟩ := drive_applies_delay hf hstart hdrive h.started
  obtain ⟨t', w, ht', hprevious, hw⟩ := drive_applies_delay hf hstart hdrive hpre
  rw [ht] at ht'
  cases ht'
  -- In the first cycle nothing has started yet.
  have hbegun : v = .boolean (decide (n ≠ 0)) := by
    cases n with
    | zero => exact hv
    | succ n =>
        obtain ⟨_, -, hfragment₁, -, -, hcycle₁, -⟩ := drive_last hf hstart ht
        have hon := hcycle₁.applies_constant (hfragment₁.symm ▸ hf) (hfragment₁.symm ▸ h.on)
        rw [if_neg (Nat.succ_ne_zero n), hon] at hv
        exact (Option.some.inj hv).symm
  rw [hbegun] at hstarted
  obtain ⟨origin, goal, speed, length, hlength, horigin, htarget, hoverride, hnext, hcompleted⟩ :=
    Fragment.Ramps.cycle hcycle hf' h' hstarted
  rw [hperiod] at hlength
  refine ⟨origin, goal, speed, length, hlength, ?_, htarget, hoverride, hnext, ?_⟩
  · cases n with
    | zero =>
        show (s.value? start).bind Value.asDouble? = some origin
        rw [show s.value? start = some (.double origin) from horigin]
        rfl
    | succ n =>
        -- The copy of the position belongs to the cycle before.
        obtain ⟨_, -, hfragment₁, -, -, hcycle₁, -⟩ := drive_last hf hstart ht
        rw [if_neg (Nat.succ_ne_zero n)] at hw
        have hcopied := hcycle₁.applies_identity (hfragment₁.symm ▸ hf)
          (hfragment₁.symm ▸ h.state) hw
        have hdouble : w = .double origin :=
          Option.some.inj (hprevious.symm.trans horigin)
        rw [hdouble] at hcopied
        exact numberIn_eq ht hcopied
  · rw [boolean?, hcompleted]
    rfl

end SignalNet
