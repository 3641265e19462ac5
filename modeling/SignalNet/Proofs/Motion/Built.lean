import SignalNet.Proofs.Motion.Parts
import SignalNet.Proofs.Pool.Kinds

/-!
# Actions and commands that are built

An action or a command is *built* if it comes from the calls that make them,
on a reachable pool (`Action.Built`, `Command.Built`).  It may be used with any
later pool.  Building adds to the pool what a sequence of calls on expressions
would add as well (`Action.ramp_composed` and its like), so the pool stays
reachable.

What is built has expressions of the right kinds: `Action.Built.typed` and
`Command.Built.typed`.  A track is completed by a boolean, a ramp by a
distance, and the scale of a command is a number.
-/

namespace SignalNet

open Computing

variable {α : Type} [Scalar α]

/-! ### Sequences of calls -/

namespace Pool

/-- Some calls lead from the first pool to the second. -/
def Follows (p q : Pool α) : Prop :=
  ∃ calls, performAll calls p = q

theorem follows_refl (p : Pool α) : p.Follows p :=
  ⟨[], rfl⟩

theorem follows_trans (p q r : Pool α) (hpq : p.Follows q) (hqr : q.Follows r) : p.Follows r := by
  obtain ⟨before, rfl⟩ := hpq
  obtain ⟨after, rfl⟩ := hqr
  exact ⟨before ++ after, List.foldl_append⟩

theorem Reachable.follows {p q : Pool α} (hp : p.Reachable) (h : p.Follows q) : q.Reachable := by
  obtain ⟨calls, rfl⟩ := h
  exact hp.performAll calls

theorem Reachable.extends_of_follows {p q : Pool α} (hp : p.Reachable) (h : p.Follows q) :
    p.Extends q := by
  obtain ⟨calls, rfl⟩ := h
  exact (performAll_grows calls p hp.wellFormed).2

/-- A construction that comes down to calls. -/
abbrev Composed {β : Type} (x : Building α β) : Prop :=
  Keeps Follows x

theorem Composed.bind {β γ : Type} {x : Building α β} {f : β → Building α γ} (hx : Composed x)
    (hf : ∀ b, Composed (f b)) : Composed (x >>= f) :=
  keeps_bind follows_trans hx hf

theorem composed_pure {β : Type} (b : β) : Composed (pure b : Building α β) :=
  keeps_pure follows_refl b

theorem composed_throw {β : Type} (e : ExprError α) : Composed (throw e : Building α β) :=
  keeps_throw follows_refl e

theorem composed_ofExcept {β : Type} (x : Except (ExprError α) β) :
    Composed (Building.ofExcept x) := by
  cases x with
  | ok b => exact composed_pure b
  | error e => exact composed_throw e

theorem composed_run (c : Call α) : Composed c.run :=
  fun _ => ⟨[c], rfl⟩

/-- Calls keep pools well formed and their nodes in place. -/
theorem Composed.sound {β : Type} {x : Building α β} (hx : Composed x) : Sound x := by
  intro p hp
  obtain ⟨calls, hcalls⟩ := hx p
  rw [← hcalls]
  exact performAll_grows calls p hp

/-- A construction that comes down to calls leads to reachable pools. -/
theorem Composed.reachable {β : Type} {x : Building α β} (hx : Composed x) {p q : Pool α}
    (hp : p.Reachable) {b : β} (h : x p = .ok b q) : p.Follows q ∧ q.Reachable := by
  have hfollows := hx p
  rw [h] at hfollows
  exact ⟨hfollows, hp.follows hfollows⟩

theorem buildOrigin_composed (start position : ExprId) :
    Composed (buildOrigin (α := α) start position) := by
  refine (composed_run (.constant _)).bind fun on => ?_
  refine (composed_run (.pre on _)).bind fun started => ?_
  refine (composed_run (.pre position _)).bind fun previous => ?_
  exact (composed_run (.select started previous start)).bind fun _ => composed_pure _

theorem buildStride_composed (maxRate : α) (scale : ExprId) :
    Composed (buildStride maxRate scale) := by
  refine (composed_run (.constant _)).bind fun rate => ?_
  refine (composed_run (.clock .period)).bind fun period => ?_
  refine (composed_run (.binary .mul rate period)).bind fun length => ?_
  refine (composed_run (.binary .mul length scale)).bind fun step => ?_
  exact (composed_run (.unary .neg step)).bind fun _ => composed_pure _

theorem buildApproach_composed (target origin back step : ExprId) :
    Composed (buildApproach (α := α) target origin back step) := by
  refine (composed_run (.binary .sub target origin)).bind fun left => ?_
  refine (composed_run (.limit left back step)).bind fun delta => ?_
  refine (composed_run (.binary .add origin delta)).bind fun next => ?_
  refine (composed_run (.binary .sub target next)).bind fun remaining => ?_
  exact (composed_run (.unary .abs remaining)).bind fun _ => composed_pure _

end Pool

namespace Action

open Pool

theorem track_composed (name channel : String) (setpoint feedback : ExprId) (tolerance settle : α) :
    Composed (track name channel setpoint feedback tolerance settle) := by
  unfold track
  split
  · exact composed_throw _
  · refine (composed_run (.binary .sub _ _)).bind fun _ => ?_
    refine (composed_run (.unary .abs _)).bind fun _ => ?_
    refine (composed_run (.constant _)).bind fun _ => ?_
    exact (composed_run (.compare .lessEq _ _)).bind fun _ => composed_pure _

theorem ramp_composed (name channel : String) (start target : ExprId) (maxRate : α) :
    Composed (ramp name channel start target maxRate) := by
  rw [ramp_eq]
  split
  · exact composed_throw _
  · refine keeps_get_bind fun p => ?_
    refine (composed_ofExcept (p.scopeOf start)).bind (fun _ => ?_) p
    refine (composed_ofExcept _).bind fun scope => ?_
    refine (composed_run (.placeholder _ .double scope)).bind fun position => ?_
    refine (composed_run (.placeholder _ .double scope)).bind fun scale => ?_
    refine (buildOrigin_composed start position).bind fun (origin, _) => ?_
    refine (buildStride_composed maxRate scale).bind fun (back, step, _) => ?_
    exact (buildApproach_composed target origin back step).bind fun _ => composed_pure _

end Action

namespace Command

open Pool

theorem buildScale_composed (deceleration : α) (cancel scaleState : ExprId) :
    Composed (buildScale deceleration cancel scaleState) := by
  refine (composed_run (.pre scaleState _)).bind fun previous => ?_
  refine (composed_run (.clock .period)).bind fun period => ?_
  refine (composed_run (.constant _)).bind fun seconds => ?_
  refine (composed_run (.binary .div period seconds)).bind fun rate => ?_
  refine (composed_run (.constant _)).bind fun stopped => ?_
  refine (composed_run (.constant _)).bind fun full => ?_
  refine (composed_run (.pre cancel _)).bind fun requested => ?_
  refine (composed_run (.select requested rate stopped)).bind fun step => ?_
  refine (composed_run (.binary .sub previous step)).bind fun change => ?_
  exact (composed_run (.limit change stopped full)).bind fun _ => composed_pure _

theorem new_composed (name : String) (scope : Scope) (action : Action α) (deceleration : Option α) :
    Composed (new name scope action deceleration) := by
  rw [new_eq]
  refine (composed_ofExcept _).bind fun seconds => keeps_get_bind fun p => ?_
  refine (composed_ofExcept (checkScope p scope action)).bind (fun _ => ?_) p
  refine (composed_run (.input _ .boolean scope)).bind fun _ => ?_
  refine (composed_run (.placeholder _ .boolean scope)).bind fun cancel => ?_
  refine (composed_run (.placeholder _ .double scope)).bind fun scaleState => ?_
  exact (buildScale_composed seconds cancel scaleState).bind fun _ => composed_pure _

theorem withOverride_composed (c : Command α) (speed : ExprId) :
    Composed (c.withOverride speed) :=
  (composed_run (.binary .mul speed c.scale)).bind fun _ => composed_pure _

end Command

/-! ### Actions -/

/-- The expression that decides when a motion is completed has the right
kind. -/
def Motion.Typed (p : Pool α) : Motion α → Prop
  | track _ _ within _ => p.kindOf within = .ok .boolean
  | ramp _ _ _ _ distance => p.kindOf distance = .ok .double
  | wait _ => True

namespace Action

open Pool

/-- The motion inside an action has expressions of the right kinds. -/
def Typed (p : Pool α) : Action α → Prop
  | basic _ motion _ => motion.Typed p
  | wrapped _ inner _ _ => inner.Typed p

omit [Scalar α] in
theorem Typed.extend {p q : Pool α} (hq : p.Extends q) {a : Action α} (h : a.Typed p) :
    a.Typed q := by
  induction a with
  | basic name motion raises =>
      cases motion with
      | track channel setpoint within settle => exact hq.kindOf h
      | ramp channel position scale next distance => exact hq.kindOf h
      | wait duration => trivial
  | wrapped name inner handled raises ih => exact ih h

omit [Scalar α] in
theorem Typed.handling {p : Pool α} {a : Action α} (h : a.Typed p) (c : ExceptionClass) :
    (a.handling c).Typed p := by
  cases a with
  | basic name motion raises => exact h
  | wrapped name inner handled raises => exact h

omit [Scalar α] in
theorem Typed.raising {p : Pool α} {a : Action α} (h : a.Typed p) (c : ExceptionClass)
    (condition : ExprId) : (a.raising c condition).Typed p := by
  cases a with
  | basic name motion raises => exact h
  | wrapped name inner handled raises => exact h

/-- A track is completed by a comparison. -/
theorem track_typed {p q : Pool α} (hp : p.WellFormed) {name channel : String}
    {setpoint feedback : ExprId} {tolerance settle : α} {a : Action α}
    (h : track name channel setpoint feedback tolerance settle p = .ok a q) : a.Typed q := by
  obtain ⟨difference, error, bound, within, p₁, p₂, p₃, h₁, h₂, h₃, h₄, rfl⟩ := track_eq_ok h
  obtain ⟨_, -, hp₁⟩ := build_yields hp h₁
  obtain ⟨_, -, hp₂⟩ := build_yields hp₁.wellFormed h₂
  have hp₃ := constant_yields hp₂.wellFormed h₃
  obtain ⟨kind, ⟨k, l, -, -, hresult⟩, hp₄⟩ := build_yields hp₃.wellFormed h₄
  have hboolean : kind = .boolean := by
    cases k <;> cases l <;> cases hresult <;> rfl
  subst hboolean
  exact hp₄.kind

/-- The sum and the difference of something and a number. -/
theorem add_sub_double {op : BinaryOp} (hop : op = .add ∨ op = .sub) {a k : Kind}
    (h : op.resultKind? a .double = some k) : k = .double := by
  rcases hop with rfl | rfl <;> cases a <;> cases h <;> rfl

/-- The product of something and a number, if it is a number. -/
theorem mul_double_numeric {a k : Kind} (h : BinaryOp.mul.resultKind? a .double = some k)
    (hnumeric : k.isNumeric = true) : k = .double := by
  cases a <;> cases h
  · rfl
  · cases hnumeric
  · cases hnumeric

/-- The scale of a ramp is a number, so its step is one if it is numeric. -/
theorem buildStride_typed {p q : Pool α} (hp : p.WellFormed) {maxRate : α}
    {scale back step : ExprId} {stride : RampStride} (hscale : p.kindOf scale = .ok .double)
    (h : buildStride maxRate scale p = .ok (back, step, stride) q) :
    ∃ kind, q.kindOf step = .ok kind ∧ (kind.isNumeric = true → kind = .double) := by
  obtain ⟨p₁, p₂, p₃, p₄, h₁, h₂, h₃, h₄, h₅⟩ := buildStride_eq_ok h
  have hp₁ := constant_yields hp h₁
  have hp₂ := clock_yields hp₁.wellFormed h₂
  obtain ⟨_, -, hp₃⟩ := build_yields hp₂.wellFormed h₃
  obtain ⟨kind, ⟨_, _, -, hscale', hstep⟩, hp₄⟩ := build_yields hp₃.wellFormed h₄
  obtain ⟨_, -, hq⟩ := build_yields hp₄.wellFormed h₅
  have hscale₃ := (hp₁.extends.trans (hp₂.extends.trans hp₃.extends)).kindOf hscale
  rw [Except.ok.inj (hscale'.symm.trans hscale₃)] at hstep
  exact ⟨kind, hq.extends.kindOf hp₄.kind, mul_double_numeric hstep⟩

/-- What is limited by numbers is a number, and so is all that follows from
it. -/
theorem buildApproach_typed {p q : Pool α} (hp : p.WellFormed)
    {target origin back step next distance : ExprId} {parts : RampParts} {stepKind : Kind}
    (hstep : p.kindOf step = .ok stepKind) (hdouble : stepKind.isNumeric = true → stepKind = .double)
    (h : buildApproach target origin back step p = .ok (next, distance, parts) q) :
    q.kindOf distance = .ok .double := by
  obtain ⟨-, p₁, p₂, p₃, p₄, h₁, h₂, h₃, h₄, h₅⟩ := buildApproach_eq_ok h
  obtain ⟨_, -, hp₁⟩ := build_yields hp h₁
  obtain ⟨deltaKind, ⟨-, -, hhi, hnumeric⟩, hp₂⟩ := build_yields hp₁.wellFormed h₂
  obtain ⟨nextKind, ⟨_, _, -, hdelta, hnext⟩, hp₃⟩ := build_yields hp₂.wellFormed h₃
  obtain ⟨leftKind, ⟨_, _, -, hnext', hleft⟩, hp₄⟩ := build_yields hp₃.wellFormed h₄
  obtain ⟨kind, ⟨_, hleft', habs⟩, hq⟩ := build_yields hp₄.wellFormed h₅
  have hsame : deltaKind = stepKind :=
    Except.ok.inj (hhi.symm.trans (hp₁.extends.kindOf hstep))
  rw [Except.ok.inj (hdelta.symm.trans hp₂.kind), hsame, hdouble (hsame ▸ hnumeric)] at hnext
  rw [Except.ok.inj (hnext'.symm.trans hp₃.kind), add_sub_double (Or.inl rfl) hnext] at hleft
  rw [Except.ok.inj (hleft'.symm.trans hp₄.kind), add_sub_double (Or.inr rfl) hleft] at habs
  cases habs
  exact hq.kind

/-- The way of a ramp is a number, whatever its ends are. -/
theorem ramp_typed {p q : Pool α} (hp : p.WellFormed) {name channel : String}
    {start target : ExprId} {maxRate : α} {a : Action α}
    (h : ramp name channel start target maxRate p = .ok a q) : a.Typed q := by
  obtain ⟨-, scope, position, scale, origin, back, step, next, distance, _, _, _, p₁, p₂, p₃, p₄,
    h₁, h₂, h₃, h₄, h₅, rfl⟩ := ramp_eq_ok h
  have hp₁ := placeholder_yields hp h₁
  have hp₂ := placeholder_yields hp₁.wellFormed h₂
  obtain ⟨hp₃, e₂₃⟩ := (buildOrigin_composed _ _).sound.grown hp₂.wellFormed h₃
  obtain ⟨hp₄, -⟩ := (buildStride_composed _ _).sound.grown hp₃ h₄
  obtain ⟨kind, hstep, hdouble⟩ := buildStride_typed hp₃ (e₂₃.kindOf hp₂.kind) h₄
  exact buildApproach_typed hp₄ hstep hdouble h₅

/-- Actions that come from the calls that make actions.  An action may be
used with any later pool. -/
inductive Built : Pool α → Action α → Prop
  | track {p q : Pool α} (hp : p.Reachable) {name channel : String} {setpoint feedback : ExprId}
      {tolerance settle : α} {a : Action α}
      (h : Action.track name channel setpoint feedback tolerance settle p = .ok a q) : Built q a
  | ramp {p q : Pool α} (hp : p.Reachable) {name channel : String} {start target : ExprId}
      {maxRate : α} {a : Action α} (h : Action.ramp name channel start target maxRate p = .ok a q) :
      Built q a
  | wait {p : Pool α} (name : String) (duration : α) : Built p (Action.wait name duration)
  | wrap {p : Pool α} {a : Action α} (h : Built p a) (name : String) : Built p (a.wrap name)
  | handling {p : Pool α} {a : Action α} (h : Built p a) (c : ExceptionClass) :
      Built p (a.handling c)
  | raising {p : Pool α} {a : Action α} (h : Built p a) (c : ExceptionClass) (condition : ExprId) :
      Built p (a.raising c condition)
  | later {p q : Pool α} {a : Action α} (h : Built p a) (hp : p.Reachable) (hq : p.Follows q) :
      Built q a

theorem Built.typed {p : Pool α} {a : Action α} (h : a.Built p) : a.Typed p := by
  induction h with
  | track hp h => exact track_typed hp.wellFormed h
  | ramp hp h => exact ramp_typed hp.wellFormed h
  | wait name duration => trivial
  | wrap _ name ih => exact ih
  | handling _ c ih => exact ih.handling c
  | raising _ c condition ih => exact ih.raising c condition
  | later _ hp hq ih => exact ih.extend (hp.extends_of_follows hq)

end Action

/-! ### Commands -/

namespace Command

open Pool

/-- The action of a command is typed, cancellation is requested by a boolean,
and the scale is a number. -/
structure Typed (p : Pool α) (c : Command α) : Prop where
  action : c.action.Typed p
  cancelInput : p.kindOf c.cancelInput = .ok .boolean
  scale : p.kindOf c.scale = .ok .double

omit [Scalar α] in
theorem Typed.extend {p q : Pool α} (hq : p.Extends q) {c : Command α} (h : c.Typed p) :
    c.Typed q :=
  ⟨h.action.extend hq, hq.kindOf h.cancelInput, hq.kindOf h.scale⟩

/-- The scale of a command has the kind of its bounds. -/
theorem buildScale_typed {p q : Pool α} (hp : p.WellFormed) {deceleration : α}
    {cancel scaleState scale : ExprId} {parts : ScaleParts}
    (h : buildScale deceleration cancel scaleState p = .ok (scale, parts) q) :
    q.kindOf scale = .ok .double := by
  obtain ⟨p₁, p₂, p₃, p₄, p₅, p₆, p₇, p₈, p₉, h₁, h₂, h₃, h₄, h₅, h₆, h₇, h₈, h₉, h₁₀⟩ :=
    buildScale_eq_ok h
  obtain ⟨_, -, hp₁⟩ := build_yields hp h₁
  have hp₂ := clock_yields hp₁.wellFormed h₂
  have hp₃ := constant_yields hp₂.wellFormed h₃
  obtain ⟨_, -, hp₄⟩ := build_yields hp₃.wellFormed h₄
  have hp₅ := constant_yields hp₄.wellFormed h₅
  have hp₆ := constant_yields hp₅.wellFormed h₆
  obtain ⟨_, -, hp₇⟩ := build_yields hp₆.wellFormed h₇
  obtain ⟨_, -, hp₈⟩ := build_yields hp₇.wellFormed h₈
  obtain ⟨_, -, hp₉⟩ := build_yields hp₈.wellFormed h₉
  obtain ⟨kind, ⟨-, hlower, -, -⟩, hq⟩ := build_yields hp₉.wellFormed h₁₀
  have hstopped : p₅.Extends p₉ :=
    hp₆.extends.trans (hp₇.extends.trans (hp₈.extends.trans hp₉.extends))
  rw [hq.kind, Except.ok.inj (hlower.symm.trans (hstopped.kindOf hp₅.kind))]
  rfl

theorem new_typed {p q : Pool α} (hp : p.WellFormed) {name : String} {scope : Scope}
    {action : Action α} (haction : action.Typed p) {deceleration : Option α} {c : Command α}
    (h : new name scope action deceleration p = .ok c q) : c.Typed q := by
  obtain ⟨_, _, -, -, -, cancelInput, cancel, scaleState, scale, parts, p₁, p₂, p₃, h₁, h₂, h₃, h₄,
    rfl⟩ := new_eq_ok h
  have hp₁ := input_yields hp h₁
  have hp₂ := placeholder_yields hp₁.wellFormed h₂
  have hp₃ := placeholder_yields hp₂.wellFormed h₃
  obtain ⟨-, e₃⟩ := (buildScale_composed _ _ _).sound.grown hp₃.wellFormed h₄
  have e₁ : p₁.Extends q := hp₂.extends.trans (hp₃.extends.trans e₃)
  exact ⟨haction.extend (hp₁.extends.trans e₁), e₁.kindOf hp₁.kind,
    buildScale_typed hp₃.wellFormed h₄⟩

theorem withOverride_typed {p q : Pool α} (hp : p.WellFormed) {c c' : Command α}
    (hc : c.Typed p) {speed : ExprId} (h : c.withOverride speed p = .ok c' q) : c'.Typed q := by
  obtain ⟨effective, heffective, rfl⟩ := withOverride_eq_ok h
  obtain ⟨_, -, hq⟩ := build_yields hp heffective
  have hextended := hc.extend hq.extends
  exact ⟨hextended.action, hextended.cancelInput, hextended.scale⟩

/-- Commands that come from the calls that make commands. -/
inductive Built : Pool α → Command α → Prop
  | new {p q : Pool α} (hp : p.Reachable) {name : String} {scope : Scope} {action : Action α}
      (haction : action.Built p) {deceleration : Option α} {c : Command α}
      (h : Command.new name scope action deceleration p = .ok c q) : Built q c
  | withOverride {p q : Pool α} (hp : p.Reachable) {c c' : Command α} (hc : Built p c)
      {speed : ExprId} (h : c.withOverride speed p = .ok c' q) : Built q c'
  | on {p : Pool α} {c : Command α} (hc : Built p c) (trigger : StateExpr α) (reaction : Reaction) :
      Built p (c.on trigger reaction)
  | persisting {p : Pool α} {c : Command α} (hc : Built p c) (handle : Nat) :
      Built p (c.persisting handle)
  | later {p q : Pool α} {c : Command α} (h : Built p c) (hp : p.Reachable) (hq : p.Follows q) :
      Built q c

theorem Built.typed {p : Pool α} {c : Command α} (h : c.Built p) : c.Typed p := by
  induction h with
  | new hp haction h => exact new_typed hp.wellFormed haction.typed h
  | withOverride hp _ h ih => exact withOverride_typed hp.wellFormed ih h
  | on _ trigger reaction ih => exact ⟨ih.action, ih.cancelInput, ih.scale⟩
  | persisting _ handle ih => exact ⟨ih.action, ih.cancelInput, ih.scale⟩
  | later _ hp hq ih => exact ih.extend (hp.extends_of_follows hq)

end Command

end SignalNet
