import SignalNet.Proofs.Motion.Scopes

/-!
# Loops of actions and commands

An expression without placeholders is *plain*.  Actions and commands are made
from plain expressions and add placeholders of their own: a ramp has two, for
its position and for its scale, and a command has two, for requests to cancel
and for its scale.

These placeholders are of two sorts.  The scale of a ramp is read in the cycle
in which it is given, the others are read a cycle later: the way to them goes
through a delay.  So an expression of an action or a command is *tied*
(`Pool.Tied`) to early placeholders, which it may meet in a cycle, and to late
ones, which it may only look back at.

* `Action.Plain.tied`: a motion meets no placeholder but the scale of its ramp.
* `Command.Plain.tied`: the scale and the override of a command meet none.
-/

namespace SignalNet

open Computing

variable {α : Type} [Scalar α]

namespace Pool

/-! ### Expressions and their placeholders -/

/-- An expression reaches no placeholders. -/
def Plain (p : Pool α) (id : ExprId) : Prop :=
  p.Confined [] id

/-- An expression reaches placeholders of two lists only, and those of the
second one only through delays. -/
structure Tied (p : Pool α) (early late : List ExprId) (id : ExprId) : Prop where
  confined : p.Confined (early ++ late) id
  meets : p.MeetsOnly early id

variable {p q : Pool α} {early late : List ExprId} {id : ExprId}

omit [Scalar α] in
theorem Tied.mono {early' late' : List ExprId} (h : p.Tied early late id)
    (hearly : ∀ x ∈ early, x ∈ early') (hlate : ∀ x ∈ late, x ∈ late') :
    p.Tied early' late' id where
  confined := by
    intro x n number label hreach hn hform
    have hx := h.confined hreach hn hform
    simp only [List.mem_append] at hx ⊢
    exact hx.imp (hearly x) (hlate x)
  meets hx := hearly _ (h.meets hx)

omit [Scalar α] in
theorem Plain.tied (h : p.Plain id) (early late : List ExprId) : p.Tied early late id := by
  have hnone : p.Tied [] [] id := ⟨h, Confined.meetsOnly h⟩
  exact hnone.mono (by simp) (by simp)

/-- What an expression of a pool meets does not change as the pool grows. -/
theorem Meets.of_extends (hp : p.WellFormed) (hq : p.Extends q) {x : ExprId}
    (hid : id < p.size) (h : q.Meets id x) : p.Meets id x := by
  induction h with
  | placeholder hn hform =>
      rw [hq.get?_eq hid] at hn
      exact .placeholder hn hform
  | operand hn hnow hd _ ih =>
      rw [hq.get?_eq hid] at hn
      exact .operand hn hnow hd (ih (Nat.lt_trans (hp.before hn _ hd) hid))

theorem Tied.extend (hp : p.WellFormed) (hq : p.Extends q) (hid : id < p.size)
    (h : p.Tied early late id) : q.Tied early late id where
  confined := by
    intro x n number label hreach hn hform
    obtain ⟨hreach', hx⟩ := hreach.of_extends hp hq hid
    rw [hq.get?_eq hx] at hn
    exact h.confined hreach' hn hform
  meets hx := h.meets (hx.of_extends hp hq hid)

theorem Plain.extend (hp : p.WellFormed) (hq : p.Extends q) (hid : id < p.size)
    (h : p.Plain id) : q.Plain id :=
  ((Plain.tied h [] []).extend hp hq hid).confined

omit [Scalar α] in
/-- Being tied is inherited. -/
theorem inherited_tied (p : Pool α) (early late : List ExprId) :
    p.Inherited (p.Tied early late) where
  literal hn hform := ⟨(inherited_confined p _).literal hn hform,
    (inherited_meetsOnly p _).literal hn hform⟩
  down hn hpure hid d hd := ⟨(inherited_confined p _).down hn hpure hid.confined d hd,
    (inherited_meetsOnly p _).down hn hpure hid.meets d hd⟩
  up hn hcomposite hdeps :=
    ⟨(inherited_confined p _).up hn hcomposite fun d hd => (hdeps d hd).confined,
      (inherited_meetsOnly p _).up hn hcomposite fun d hd => (hdeps d hd).meets⟩

/-- An expression without operands reaches nothing but itself. -/
theorem Holds.confined_leaf {form : Form α} {targets : List ExprId} (h : p.Holds id form)
    (hleaf : form.dependencies = [])
    (hform : ∀ number label, form = .placeholder number label → id ∈ targets) :
    p.Confined targets id := by
  obtain ⟨n, hn, hcanonical⟩ := h
  have hnone : n.dependencies = [] := (Form.canonical_dependencies hcanonical).trans hleaf
  intro x m number label hreach hm hplaceholder
  rcases hreach.cases_root with rfl | ⟨n', d, hn', hd, -⟩
  · rw [hn] at hm
    cases hm
    rw [hplaceholder] at hcanonical
    exact hform number label (Form.eq_placeholder_of_canonical hcanonical.symm)
  · rw [hn] at hn'
    cases hn'
    simp [hnone] at hd

theorem Holds.tied_leaf {form : Form α} (h : p.Holds id form) (hleaf : form.dependencies = [])
    (hform : ∀ number label, form = .placeholder number label → id ∈ early) :
    p.Tied early late id where
  confined := h.confined_leaf hleaf fun number label hp =>
    List.mem_append_left _ (hform number label hp)
  meets := Confined.meetsOnly (h.confined_leaf hleaf hform)

/-- **A delay breaks loops**: what it looks back at is not met. -/
theorem Holds.tied_pre {x : ExprId} {initial : Value α} (h : p.Holds id (.pre x initial))
    (hx : p.Confined (early ++ late) x) : p.Tied early late id where
  confined := by
    refine h.up (inherited_confined p _) rfl ?_
    intro d hd
    exact List.mem_singleton.mp hd ▸ hx
  meets := by
    obtain ⟨n, hn, hcanonical⟩ := h
    obtain ⟨w, hpre⟩ : ∃ w, n.form = .pre x w := by
      cases hform : n.form <;> simp_all [Form.canonical]
    intro y hy
    cases hy with
    | placeholder hm hplaceholder =>
        rw [hn] at hm
        cases hm
        rw [hpre] at hplaceholder
        cases hplaceholder
    | operand hm hnow _ _ =>
        rw [hn] at hm
        cases hm
        exact absurd hpre (hnow x w)

/-! ### What the parts of a ramp inherit -/

section Parts

variable {r : Pool α} {Q : ExprId → Prop} (hp : p.WellFormed) (hr : q.Extends r)
  (hQ : r.Inherited Q)

include hp hr hQ

/-- The origin of a ramp is its start, or a look back at its position. -/
theorem buildOrigin_inherited {start position origin : ExprId} {parts : RampOrigin}
    (h : buildOrigin start position p = .ok (origin, parts) q) (hstart : Q start)
    (hlook : ∀ {id}, r.Holds id (.pre position (.double 0)) → Q id) : Q origin := by
  obtain ⟨p₁, p₂, p₃, h₁, h₂, h₃, h₄⟩ := buildOrigin_eq_ok h
  have hp₁ := constant_yields hp h₁
  obtain ⟨_, -, hp₂⟩ := build_yields hp₁.wellFormed h₂
  obtain ⟨_, -, hp₃⟩ := build_yields hp₂.wellFormed h₃
  obtain ⟨_, -, hq⟩ := build_yields hp₃.wellFormed h₄
  have e₃ := hq.extends.trans hr
  have e₂ := hp₃.extends.trans e₃
  have hon : Q parts.on := hQ.constant hp (hp₂.extends.trans e₂) h₁
  have hstarted : Q parts.started :=
    hQ.build hp₁.wellFormed e₂ rfl (by simpa [Form.dependencies] using hon) h₂
  have hprevious : Q parts.previous := hlook ((build_holds hp₂.wellFormed (p₂.simplify_pre _ _) h₃).extend e₃)
  exact hQ.build hp₃.wellFormed hr rfl
    (by simp [Form.dependencies, hstarted, hprevious, hstart]) h₄

/-- The stride of a ramp is made from its scale and the clock. -/
theorem buildStride_inherited {maxRate : α} {scale back step : ExprId} {parts : RampStride}
    (h : buildStride maxRate scale p = .ok (back, step, parts) q) (hscale : Q scale)
    (hclock : ∀ {id}, r.Holds id (.clock .period) → Q id) : Q back ∧ Q step := by
  obtain ⟨p₁, p₂, p₃, p₄, h₁, h₂, h₃, h₄, h₅⟩ := buildStride_eq_ok h
  have hp₁ := constant_yields hp h₁
  have hp₂ := clock_yields hp₁.wellFormed h₂
  obtain ⟨_, -, hp₃⟩ := build_yields hp₂.wellFormed h₃
  obtain ⟨_, -, hp₄⟩ := build_yields hp₃.wellFormed h₄
  obtain ⟨_, -, hq⟩ := build_yields hp₄.wellFormed h₅
  have e₄ := hq.extends.trans hr
  have e₃ := hp₄.extends.trans e₄
  have e₂ := hp₃.extends.trans e₃
  have hrate : Q parts.rate := hQ.constant hp (hp₂.extends.trans e₂) h₁
  have hperiod : Q parts.period := hclock ((intern_holds hp₁.wellFormed h₂).extend e₂)
  have hlength : Q parts.length := hQ.build hp₂.wellFormed e₃ rfl
    (by simp [Form.dependencies, hrate, hperiod]) h₃
  have hstep : Q step := hQ.build hp₃.wellFormed e₄ rfl
    (by simp [Form.dependencies, hlength, hscale]) h₄
  exact ⟨hQ.build hp₄.wellFormed hr rfl (by simpa [Form.dependencies] using hstep) h₅, hstep⟩

/-- The next position and the distance are made from what lies on the way. -/
theorem buildApproach_inherited {target origin back step next distance : ExprId}
    {parts : RampParts} (h : buildApproach target origin back step p = .ok (next, distance, parts) q)
    (htarget : Q target) (horigin : Q origin) (hback : Q back) (hstep : Q step) :
    Q next ∧ Q distance := by
  obtain ⟨-, p₁, p₂, p₃, p₄, h₁, h₂, h₃, h₄, h₅⟩ := buildApproach_eq_ok h
  obtain ⟨_, -, hp₁⟩ := build_yields hp h₁
  obtain ⟨_, -, hp₂⟩ := build_yields hp₁.wellFormed h₂
  obtain ⟨_, -, hp₃⟩ := build_yields hp₂.wellFormed h₃
  obtain ⟨_, -, hp₄⟩ := build_yields hp₃.wellFormed h₄
  obtain ⟨_, -, hq⟩ := build_yields hp₄.wellFormed h₅
  have e₄ := hq.extends.trans hr
  have e₃ := hp₄.extends.trans e₄
  have e₂ := hp₃.extends.trans e₃
  have hleft : Q parts.left := hQ.build hp (hp₂.extends.trans e₂) rfl
    (by simp [Form.dependencies, htarget, horigin]) h₁
  have hdelta : Q parts.delta := hQ.build hp₁.wellFormed e₂ rfl
    (by simp [Form.dependencies, hleft, hback, hstep]) h₂
  have hnext : Q next := hQ.build hp₂.wellFormed e₃ rfl
    (by simp [Form.dependencies, horigin, hdelta]) h₃
  have hremaining : Q parts.remaining := hQ.build hp₃.wellFormed e₄ rfl
    (by simp [Form.dependencies, htarget, hnext]) h₄
  exact ⟨hnext,
    hQ.build hp₄.wellFormed hr rfl (by simpa [Form.dependencies] using hremaining) h₅⟩

end Parts

end Pool

/-! ### Actions -/

namespace Action

open Pool

/-- What the next position and the distance of a ramp are made from: its ends,
its two placeholders, and the clock. -/
theorem ramp_inherited {p q : Pool α} (hp : p.WellFormed) {name channel : String}
    {start target position scale next distance : ExprId} {maxRate : α}
    (h : ramp name channel start target maxRate p =
      .ok (basic name (.ramp channel position scale next distance) []) q)
    {Q : ExprId → Prop} (hQ : q.Inherited Q) (hstart : Q start) (htarget : Q target)
    (hscale : Q scale) (hclock : ∀ {id}, q.Holds id (.clock .period) → Q id)
    (hlook : ∀ {id}, q.Holds id (.pre position (.double 0)) → Q id) : Q next ∧ Q distance := by
  obtain ⟨-, scope, _, _, origin, back, step, _, _, _, _, _, p₁, p₂, p₃, p₄, h₁, h₂, h₃, h₄, h₅,
    heq⟩ := ramp_eq_ok h
  cases heq
  have hp₁ := placeholder_yields hp h₁
  have hp₂ := placeholder_yields hp₁.wellFormed h₂
  obtain ⟨hp₃, -⟩ := (buildOrigin_composed _ _).sound.grown hp₂.wellFormed h₃
  obtain ⟨hp₄, e₃₄⟩ := (buildStride_composed _ _).sound.grown hp₃ h₄
  obtain ⟨-, e₄⟩ := (buildApproach_composed _ _ _ _).sound.grown hp₄ h₅
  have horigin := buildOrigin_inherited hp₂.wellFormed (e₃₄.trans e₄) hQ h₃ hstart hlook
  obtain ⟨hback, hstep⟩ := buildStride_inherited hp₃ e₄ hQ h₄ hscale hclock
  exact buildApproach_inherited hp₄ (Extends.refl q) hQ h₅ htarget horigin hback hstep

/-- Actions made from plain expressions.  Conditions for exceptions are not
looked at here. -/
inductive Plain : Pool α → Action α → Prop
  | track {p q : Pool α} (hp : p.Reachable) {name channel : String} {setpoint feedback : ExprId}
      (hsetpoint : p.Plain setpoint) (hfeedback : p.Plain feedback) {tolerance settle : α}
      {a : Action α} (h : track name channel setpoint feedback tolerance settle p = .ok a q) :
      Plain q a
  | ramp {p q : Pool α} (hp : p.Reachable) {name channel : String} {start target : ExprId}
      (hstart : p.Plain start) (htarget : p.Plain target) {maxRate : α} {a : Action α}
      (h : ramp name channel start target maxRate p = .ok a q) : Plain q a
  | wait {p : Pool α} (name : String) (duration : α) : Plain p (Action.wait name duration)
  | wrap {p : Pool α} {a : Action α} (h : Plain p a) (name : String) : Plain p (a.wrap name)
  | handling {p : Pool α} {a : Action α} (h : Plain p a) (c : ExceptionClass) :
      Plain p (a.handling c)
  | raising {p : Pool α} {a : Action α} (h : Plain p a) (c : ExceptionClass) (condition : ExprId) :
      Plain p (a.raising c condition)
  | later {p q : Pool α} {a : Action α} (h : Plain p a) (hp : p.Reachable) (hq : p.Follows q) :
      Plain q a

theorem Plain.built {p : Pool α} {a : Action α} (h : a.Plain p) : a.Built p := by
  induction h with
  | track hp _ _ h => exact .track hp h
  | ramp hp _ _ h => exact .ramp hp h
  | wait name duration => exact .wait name duration
  | wrap _ name ih => exact ih.wrap name
  | handling _ c ih => exact ih.handling c
  | raising _ c condition ih => exact ih.raising c condition
  | later _ hp hq ih => exact ih.later hp hq

/-- The motion of an action meets its own placeholders only: the scale of the
ramp at once, the position a cycle later.  The two are not the same. -/
structure Tied (p : Pool α) (a : Action α) : Prop where
  expressions : ∀ id ∈ a.motion.expressions,
    id < p.size ∧ p.Tied a.scalePlaceholders a.positions id
  apart : ∀ id ∈ a.positions, id ∉ a.scalePlaceholders

theorem Tied.extend {p q : Pool α} (hp : p.WellFormed) (hq : p.Extends q) {a : Action α}
    (h : a.Tied p) : a.Tied q := by
  refine ⟨?_, h.apart⟩
  intro id hid
  obtain ⟨hlt, htied⟩ := h.expressions id hid
  exact ⟨Nat.lt_of_lt_of_le hlt hq.size_le, htied.extend hp hq hlt⟩

/-- A track has no placeholders. -/
theorem track_tied {p q : Pool α} (hp : p.WellFormed) {name channel : String}
    {setpoint feedback : ExprId} (hsetpoint : p.Plain setpoint) (hfeedback : p.Plain feedback)
    {tolerance settle : α} {a : Action α}
    (h : track name channel setpoint feedback tolerance settle p = .ok a q) : a.Tied q := by
  obtain ⟨difference, error, bound, within, p₁, p₂, p₃, h₁, h₂, h₃, h₄, rfl⟩ := track_eq_ok h
  obtain ⟨_, ⟨_, _, hsetpointKind, hfeedbackKind, -⟩, hp₁⟩ := build_yields hp h₁
  obtain ⟨_, -, hp₂⟩ := build_yields hp₁.wellFormed h₂
  have hp₃ := constant_yields hp₂.wellFormed h₃
  obtain ⟨_, -, hp₄⟩ := build_yields hp₃.wellFormed h₄
  have e₂ : p₂.Extends q := hp₃.extends.trans hp₄.extends
  have e₁ := hp₂.extends.trans e₂
  have hlt := lt_size_of_kindOf hsetpointKind
  have hQ := inherited_tied q [] []
  have hQsetpoint := (Plain.tied hsetpoint [] []).extend hp (hp₁.extends.trans e₁) hlt
  have hQfeedback := (Plain.tied hfeedback [] []).extend hp (hp₁.extends.trans e₁)
    (lt_size_of_kindOf hfeedbackKind)
  have hQdifference := hQ.build hp e₁ rfl
    (by simp [Form.dependencies, hQsetpoint, hQfeedback]) h₁
  have hQerror := hQ.build hp₁.wellFormed e₂ rfl
    (by simpa [Form.dependencies] using hQdifference) h₂
  have hQbound := hQ.constant hp₂.wellFormed hp₄.extends h₃
  have hQwithin := hQ.build hp₃.wellFormed (Extends.refl _) rfl
    (by simp [Form.dependencies, hQerror, hQbound]) h₄
  refine ⟨?_, by simp [positions]⟩
  intro id hid
  rcases List.mem_pair.mp hid with rfl | rfl
  · exact ⟨Nat.lt_of_lt_of_le hlt (hp₁.extends.trans e₁).size_le, hQsetpoint⟩
  · exact ⟨lt_size_of_kindOf hp₄.kind, hQwithin⟩

/-- A ramp meets its scale, and looks back at its position. -/
theorem ramp_tied {p q : Pool α} (hp : p.WellFormed) {name channel : String}
    {start target : ExprId} (hstart : p.Plain start) (htarget : p.Plain target) {maxRate : α}
    {a : Action α} (h : ramp name channel start target maxRate p = .ok a q) : a.Tied q := by
  obtain ⟨⟨-, hstartLt, htargetLt⟩, -⟩ := ramp_eq_ok h
  obtain ⟨-, hq⟩ := (ramp_composed _ _ _ _ _).sound.grown hp h
  obtain ⟨-, position, scale, next, distance, parts, origin, stride, rfl, hbefore, hholds⟩ :=
    ramp_holds hp h
  obtain ⟨number, label, hposition⟩ := hholds.positionOpen
  obtain ⟨number', label', hscale⟩ := hholds.scaleOpen
  have hconfined : q.Confined ([scale] ++ [position]) position :=
    hposition.confined_leaf rfl fun _ _ _ => by simp
  obtain ⟨hnext, hdistance⟩ := ramp_inherited hp h (inherited_tied q [scale] [position])
    ((Plain.tied hstart _ _).extend hp hq hstartLt)
    ((Plain.tied htarget _ _).extend hp hq htargetLt)
    (hscale.tied_leaf rfl fun _ _ _ => by simp)
    (fun hclock => hclock.tied_leaf rfl fun _ _ hform => by cases hform)
    (fun hpre => hpre.tied_pre hconfined)
  refine ⟨?_, ?_⟩
  · intro id hid
    rcases List.mem_pair.mp hid with rfl | rfl
    · exact ⟨hholds.next.lt_size, hnext⟩
    · exact ⟨hholds.distance.lt_size, hdistance⟩
  · intro id hid hmem
    have hid' : id = position := List.mem_singleton.mp hid
    have hmem' : id = scale := List.mem_singleton.mp hmem
    exact absurd (hid'.symm.trans hmem') (Nat.ne_of_lt hbefore)

omit [Scalar α] in
theorem positions_handling (a : Action α) (c : ExceptionClass) :
    (a.handling c).positions = a.positions ∧
      (a.handling c).scalePlaceholders = a.scalePlaceholders := by
  cases a with
  | basic name motion raises => exact ⟨rfl, rfl⟩
  | wrapped name inner handled raises => exact ⟨rfl, rfl⟩

omit [Scalar α] in
theorem positions_raising (a : Action α) (c : ExceptionClass) (condition : ExprId) :
    (a.raising c condition).positions = a.positions ∧
      (a.raising c condition).scalePlaceholders = a.scalePlaceholders := by
  cases a with
  | basic name motion raises => cases motion <;> exact ⟨rfl, rfl⟩
  | wrapped name inner handled raises => exact ⟨rfl, rfl⟩

/-- **Actions made from plain expressions** meet nothing but the scale of their
ramp. -/
theorem Plain.tied {p : Pool α} {a : Action α} (h : a.Plain p) : a.Tied p := by
  induction h with
  | track hp hsetpoint hfeedback h => exact track_tied hp.wellFormed hsetpoint hfeedback h
  | ramp hp hstart htarget h => exact ramp_tied hp.wellFormed hstart htarget h
  | wait name duration => exact ⟨by simp [Action.wait, motion, Motion.expressions],
      by simp [Action.wait, positions]⟩
  | wrap _ name ih => exact ⟨ih.expressions, ih.apart⟩
  | @handling p a _ c ih =>
      obtain ⟨hpositions, hscales⟩ := positions_handling a c
      refine ⟨?_, ?_⟩
      · rw [motion_handling, hpositions, hscales]
        exact ih.expressions
      · rw [hpositions, hscales]
        exact ih.apart
  | @raising p a _ c condition ih =>
      obtain ⟨hpositions, hscales⟩ := positions_raising a c condition
      refine ⟨?_, ?_⟩
      · rw [motion_raising, hpositions, hscales]
        exact ih.expressions
      · rw [hpositions, hscales]
        exact ih.apart
  | later _ hp hq ih => exact ih.extend hp.wellFormed (hp.extends_of_follows hq)

end Action

/-! ### Commands -/

namespace Command

open Pool

/-- Commands made from plain actions and plain overrides.  Triggers and kept
values are not looked at here. -/
inductive Plain : Pool α → Command α → Prop
  | new {p q : Pool α} (hp : p.Reachable) {name : String} {scope : Scope} {action : Action α}
      (haction : action.Plain p) {deceleration : Option α} {c : Command α}
      (h : Command.new name scope action deceleration p = .ok c q) : Plain q c
  | withOverride {p q : Pool α} (hp : p.Reachable) {c c' : Command α} (hc : Plain p c)
      {speed : ExprId} (hspeed : p.Plain speed) (h : c.withOverride speed p = .ok c' q) :
      Plain q c'
  | on {p : Pool α} {c : Command α} (hc : Plain p c) (trigger : StateExpr α) (reaction : Reaction) :
      Plain p (c.on trigger reaction)
  | persisting {p : Pool α} {c : Command α} (hc : Plain p c) (handle : Nat) :
      Plain p (c.persisting handle)
  | later {p q : Pool α} {c : Command α} (h : Plain p c) (hp : p.Reachable) (hq : p.Follows q) :
      Plain q c

theorem Plain.built {p : Pool α} {c : Command α} (h : c.Plain p) : c.Built p := by
  induction h with
  | new hp haction h => exact .new hp haction.built h
  | withOverride hp _ _ h ih => exact .withOverride hp ih h
  | on _ trigger reaction ih => exact ih.on trigger reaction
  | persisting _ handle ih => exact ih.persisting handle
  | later _ hp hq ih => exact ih.later hp hq

/-- The scale of a command looks back at the placeholders of the command, and
meets nothing. -/
theorem Scaled.tied {p : Pool α} {c : Command α} {parts : ScaleParts} (h : c.Scaled p parts) :
    p.Tied [] [c.cancel, c.scaleState] c.scale := by
  obtain ⟨_, _, hcancel⟩ := h.cancelOpen
  obtain ⟨_, _, hstate⟩ := h.stateOpen
  have hprevious : p.Tied [] [c.cancel, c.scaleState] parts.previous :=
    h.previous.tied_pre (hstate.confined_leaf rfl fun _ _ _ => by simp)
  have hrequested : p.Tied [] [c.cancel, c.scaleState] parts.requested :=
    h.requested.tied_pre (hcancel.confined_leaf rfl fun _ _ _ => by simp)
  exact h.toHoldsScale.inherited (inherited_tied p _ _)
    (h.period.tied_leaf rfl fun _ _ hform => by cases hform) hprevious hrequested

/-- What holds of the override of a command, too. -/
structure Tied (p : Pool α) (c : Command α) : Prop where
  action : c.action.Tied p
  scale : p.Tied [] [c.cancel, c.scaleState] c.scale
  effective : c.effective < p.size ∧ p.Tied [] [c.cancel, c.scaleState] c.effective

/-- A new command runs the action that it is made with, at its own scale. -/
theorem new_made {p q : Pool α} {name : String} {scope : Scope} {action : Action α}
    {deceleration : Option α} {c : Command α}
    (h : new name scope action deceleration p = .ok c q) :
    c.action = action ∧ c.effective = c.scale := by
  obtain ⟨_, _, -, -, -, _, _, _, _, _, _, _, _, -, -, -, -, rfl⟩ := new_eq_ok h
  exact ⟨rfl, rfl⟩

/-- **Commands made from plain expressions** meet no placeholder in a cycle. -/
theorem Plain.tied {p : Pool α} {c : Command α} (h : c.Plain p) : c.Tied p := by
  induction h with
  | @new p q hp name scope action haction deceleration c h =>
      obtain ⟨parts, hscaled⟩ := new_scaled hp.wellFormed haction.built.placeholders_lt h
      obtain ⟨rfl, heffective⟩ := new_made h
      have hfollows := new_composed name scope c.action deceleration p
      rw [h] at hfollows
      refine ⟨haction.tied.extend hp.wellFormed (hp.extends_of_follows hfollows), hscaled.tied, ?_⟩
      rw [heffective]
      exact ⟨hscaled.scale.lt_size, hscaled.tied⟩
  | @withOverride p q hp c c' hc speed hspeed h ih =>
      obtain ⟨effective, hbuild, rfl⟩ := withOverride_eq_ok h
      obtain ⟨_, ⟨_, _, hspeedKind, hscaleKind, -⟩, hq⟩ := build_yields hp.wellFormed hbuild
      have hscale := ih.scale.extend hp.wellFormed hq.extends (lt_size_of_kindOf hscaleKind)
      have hspeed' := (Pool.Plain.tied hspeed [] [c.cancel, c.scaleState]).extend hp.wellFormed
        hq.extends (lt_size_of_kindOf hspeedKind)
      have heffective := (inherited_tied q [] [c.cancel, c.scaleState]).build hp.wellFormed
        (Extends.refl _) rfl (by simp [Form.dependencies, hspeed', hscale]) hbuild
      exact ⟨ih.action.extend hp.wellFormed hq.extends, hscale, lt_size_of_kindOf hq.kind,
        heffective⟩
  | on _ trigger reaction ih => exact ⟨ih.action, ih.scale, ih.effective⟩
  | persisting _ handle ih => exact ⟨ih.action, ih.scale, ih.effective⟩
  | @later p q c hc hp hq ih =>
      have hextends := hp.extends_of_follows hq
      obtain ⟨hlt, heffective⟩ := ih.effective
      obtain ⟨parts, hscaled⟩ := (hc.later hp hq).built.scaled
      exact ⟨ih.action.extend hp.wellFormed hextends, hscaled.tied,
        Nat.lt_of_lt_of_le hlt hextends.size_le, heffective.extend hp.wellFormed hextends hlt⟩

end Command

end SignalNet
