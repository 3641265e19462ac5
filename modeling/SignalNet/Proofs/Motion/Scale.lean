import SignalNet.Proofs.Compile.Traversal
import SignalNet.Proofs.Motion.Built

/-!
# The scale of a command

A command that was built leaves a loop in its pool: the scale is limited from
what was left of the scale before, less a step if cancellation was requested
before (`Pool.HoldsScale`).  Folding changes nothing in this loop, except that
a division by one is left out.

The loop is closed by two placeholders.  They are new when the command is
made, so no ramp of its action has them (`Command.Scaled.apart`).
-/

namespace SignalNet

open Computing

variable {α : Type} [Scalar α]

/-- Sharing changes nothing about placeholders. -/
theorem Form.eq_placeholder_of_canonical {form : Form α} {number : Nat} {label : String}
    (h : form.canonical = (Form.placeholder number label : Form α).canonical) :
    form = .placeholder number label := by
  cases form <;> simp_all [Form.canonical]

namespace Pool

/-! ### Forms that are kept -/

/-- An expression has a form, up to the constants that structural sharing
identifies. -/
def Holds (p : Pool α) (id : ExprId) (form : Form α) : Prop :=
  ∃ n, p.get? id = some n ∧ n.form.canonical = form.canonical

theorem Holds.extend {p q : Pool α} (hq : p.Extends q) {id : ExprId} {form : Form α}
    (h : p.Holds id form) : q.Holds id form := by
  obtain ⟨n, hn, hform⟩ := h
  exact ⟨n, hq.get? hn, hform⟩

theorem intern_holds {p q : Pool α} (hp : p.WellFormed) {n : Node α} {id : ExprId}
    (h : intern n p = .ok id q) : q.Holds id n.form := by
  obtain ⟨m, hm, hcanonical⟩ := intern_eq_ok hp h
  exact ⟨m, hm, congrArg Node.form hcanonical⟩

theorem Holds.lt_size {p : Pool α} {id : ExprId} {form : Form α} (h : p.Holds id form) :
    id < p.size := by
  obtain ⟨n, hn, -⟩ := h
  exact lt_size_of_get? hn

/-- What is no constant is no literal. -/
theorem Holds.literal?_eq_none {p : Pool α} {id : ExprId} {form : Form α} (h : p.Holds id form)
    (hform : form.literal? = none) : p.literal? id = none := by
  obtain ⟨n, hn, hcanonical⟩ := h
  have hnone : n.form.literal? = none := by
    cases hn' : n.form <;> cases form <;> simp_all [Form.literal?, Form.canonical]
  simp [literal?, form?, hn, hnone]

theorem Holds.literal?_eq_some {p : Pool α} {id : ExprId} {v : Value α}
    (h : p.Holds id (.constant v)) :
    ∃ w, p.literal? id = some w ∧ w.canonical = v.canonical := by
  obtain ⟨n, hn, hcanonical⟩ := h
  cases hform : n.form with
  | constant w =>
      rw [hform] at hcanonical
      refine ⟨w, ?_, Form.constant.inj hcanonical⟩
      simp [literal?, form?, hn, hform, Form.literal?]
  | _ => simp [hform, Form.canonical] at hcanonical

/-- An operand that is no literal keeps a form from being evaluated. -/
theorem evalLiterals?_eq_none {p : Pool α} {form : Form α} {d : ExprId}
    (hd : d ∈ form.dependencies) (hliteral : p.literal? d = none) :
    p.evalLiterals? form = none := by
  unfold evalLiterals?
  split
  · cases hliterals : form.dependencies.mapM p.literal? with
    | none => rfl
    | some vs =>
        obtain ⟨v, -, hv⟩ := forall₂_exists_of_mem (mapM_some_iff_forall₂.mp hliterals) hd
        rw [hliteral] at hv
        cases hv
  · rfl

theorem simplify_pre (p : Pool α) (x : ExprId) (initial : Value α) (kind : Kind) :
    p.simplify (.pre x initial) kind = .keep := by
  have hnone : p.evalLiterals? (.pre x initial) = none := rfl
  unfold simplify
  rw [hnone]

theorem simplify_limit {p : Pool α} {x lower upper : ExprId} (hx : p.literal? x = none)
    (kind : Kind) : p.simplify (.limit x lower upper) kind = .keep := by
  have hnone : p.evalLiterals? (.limit x lower upper) = none :=
    evalLiterals?_eq_none (by simp [Form.dependencies]) hx
  unfold simplify
  rw [hnone]

theorem simplify_select {p : Pool α} {condition ifTrue ifFalse : ExprId}
    (hcondition : p.literal? condition = none) (hne : ifTrue ≠ ifFalse) (kind : Kind) :
    p.simplify (.select condition ifTrue ifFalse) kind = .keep := by
  have hnone : p.evalLiterals? (.select condition ifTrue ifFalse) = none :=
    evalLiterals?_eq_none (by simp [Form.dependencies]) hcondition
  unfold simplify
  simp only [hnone, hcondition, Option.bind_none, if_neg hne]

/-- An operator with an operand that is no literal is left to its own rules. -/
theorem simplify_operator {p : Pool α} {op : BinaryOp} {x y d : ExprId} (hd : d ∈ [x, y])
    (hliteral : p.literal? d = none) (kind : Kind) :
    p.simplify (.binary op x y) kind = p.simplifyBinary op x y kind := by
  have hnone : p.evalLiterals? (.binary op x y) = none := evalLiterals?_eq_none hd hliteral
  unfold simplify
  rw [hnone]

theorem simplify_binary {p : Pool α} {op : BinaryOp} {x y : ExprId} (hx : p.literal? x = none)
    (hy : p.literal? y = none) (kind : Kind) : p.simplify (.binary op x y) kind = .keep := by
  rw [simplify_operator List.mem_cons_self hx]
  unfold simplifyBinary
  rw [hx, hy]

/-- Nothing but a literal on its right simplifies a difference. -/
theorem simplify_sub {p : Pool α} {x y : ExprId} (hy : p.literal? y = none) (kind : Kind) :
    p.simplify (.binary .sub x y) kind = .keep := by
  cases hx : p.literal? x with
  | none => exact simplify_binary hx hy kind
  | some v =>
      rw [simplify_operator (List.mem_cons_of_mem _ List.mem_cons_self) hy]
      unfold simplifyBinary
      simp only [hx, hy, BinaryOp.isCommutative, Bool.false_eq_true, if_false]

/-- A division by a literal is left out if the literal is one. -/
theorem simplify_div {p : Pool α} {x y : ExprId} {w : Value α} (hx : p.literal? x = none)
    (hy : p.literal? y = some w) (kind : Kind) :
    p.simplify (.binary .div x y) kind = if w.isOne then .existing x else .keep := by
  rw [simplify_operator List.mem_cons_self hx]
  unfold simplifyBinary
  simp only [hx, hy, simplifyRight]

/-- Building ends as the simplification says. -/
theorem build_settles {p q : Pool α} {form : Form α} {id : ExprId}
    (h : build form p = .ok id q) : ∃ fuel kind scope,
      settle fuel ⟨form, kind, scope, p.staysConstant form⟩
        (if p.folding then p.simplify form kind else .keep) p = .ok id q := by
  obtain ⟨scope, kind, -, -, hsettle⟩ := buildWithin_settles h
  exact ⟨_, kind, scope, hsettle⟩

/-- A form that is not simplified is added as it is. -/
theorem build_holds {p q : Pool α} (hp : p.WellFormed) {form : Form α} {id : ExprId}
    (hkeep : ∀ kind, p.simplify form kind = .keep) (h : build form p = .ok id q) :
    q.Holds id form := by
  obtain ⟨fuel, kind, scope, hsettle⟩ := build_settles h
  rw [hkeep, ite_self] at hsettle
  exact intern_holds hp hsettle

theorem build_div {p q : Pool α} (hp : p.WellFormed) {x y id : ExprId} {w : Value α}
    (hx : p.literal? x = none) (hy : p.literal? y = some w) (h : build (.binary .div x y) p = .ok id q) :
    q.Holds id (.binary .div x y) ∨ id = x ∧ w.isOne = true := by
  by_cases hone : w.isOne = true
  · obtain ⟨fuel, kind, scope, hsettle⟩ := build_settles h
    rw [simplify_div hx hy, if_pos hone] at hsettle
    split at hsettle
    · exact Or.inr ⟨(pure_eq_ok.mp hsettle).1.symm, hone⟩
    · exact Or.inl (intern_holds hp hsettle)
  · refine Or.inl (build_holds hp (fun kind => ?_) h)
    rw [simplify_div hx hy, if_neg hone]

omit [Scalar α] in
/-- A position in a pool. -/
theorem lt_size_of_kindOf {p : Pool α} {id : ExprId} {kind : Kind} (h : p.kindOf id = .ok kind) :
    id < p.size := by
  obtain ⟨n, hn, -⟩ := kindOf_eq_ok.mp h
  exact lt_size_of_get? hn

/-- A placeholder is new. -/
theorem placeholder_holds {p q : Pool α} (hp : p.WellFormed) {label : String} {kind : Kind}
    {scope : Scope} {id : ExprId} (h : placeholder label kind scope p = .ok id q) :
    (∃ number, q.Holds id (.placeholder number label)) ∧ p.size ≤ id := by
  obtain ⟨_, _, hget, hafter⟩ := bind_eq_ok.mp h
  obtain ⟨rfl, rfl⟩ := get_eq_ok.mp hget
  obtain ⟨_, p₁, hset, hintern⟩ := bind_eq_ok.mp hafter
  obtain rfl := set_eq_ok.mp hset
  have hcounted := (grows_count p hp).1
  refine ⟨⟨_, intern_holds hcounted hintern⟩, ?_⟩
  unfold intern at hintern
  split at hintern
  · next found hfind =>
      -- The number of an older placeholder is below the counter.
      obtain ⟨m, hm, hcanonical⟩ := hcounted.find?_eq_some_iff.mp hfind
      have hsame : m.form = .placeholder p.nextPlaceholder label :=
        Form.eq_placeholder_of_canonical (congrArg Node.form hcanonical)
      exact absurd (hp.counted hm hsame) (Nat.lt_irrefl _)
  · cases hintern
    exact Nat.le_refl _

end Pool

/-! ### Ramps -/

namespace Action

open Pool

/-- The placeholders of the ramps in an action. -/
def placeholders (a : Action α) : List ExprId :=
  a.positions ++ a.scalePlaceholders

omit [Scalar α] in
theorem placeholders_raising (a : Action α) (c : ExceptionClass) (condition : ExprId) :
    (a.raising c condition).placeholders = a.placeholders := by
  cases a with
  | basic name motion raises => cases motion <;> rfl
  | wrapped name inner handled raises => rfl

omit [Scalar α] in
theorem placeholders_handling (a : Action α) (c : ExceptionClass) :
    (a.handling c).placeholders = a.placeholders := by
  cases a with
  | basic name motion raises => rfl
  | wrapped name inner handled raises => rfl

/-- A ramp has two placeholders of the pool. -/
theorem ramp_placeholders {p q : Pool α} (hp : p.WellFormed) {name channel : String}
    {start target : ExprId} {maxRate : α} {a : Action α}
    (h : ramp name channel start target maxRate p = .ok a q) :
    ∀ id ∈ a.placeholders, id < q.size := by
  obtain ⟨-, scope, position, scale, origin, back, step, next, distance, _, _, _, p₁, p₂, p₃, p₄,
    h₁, h₂, h₃, h₄, h₅, rfl⟩ := ramp_eq_ok h
  have hp₁ := placeholder_yields hp h₁
  have hp₂ := placeholder_yields hp₁.wellFormed h₂
  obtain ⟨hp₃, e₂₃⟩ := (buildOrigin_composed _ _).sound.grown hp₂.wellFormed h₃
  obtain ⟨hp₄, e₃₄⟩ := (buildStride_composed _ _).sound.grown hp₃ h₄
  obtain ⟨-, e₄⟩ := (buildApproach_composed _ _ _ _).sound.grown hp₄ h₅
  have e₂ : p₂.Extends q := e₂₃.trans (e₃₄.trans e₄)
  intro id hid
  rcases List.mem_pair.mp hid with rfl | rfl
  · exact lt_size_of_kindOf ((hp₂.extends.trans e₂).kindOf hp₁.kind)
  · exact lt_size_of_kindOf (e₂.kindOf hp₂.kind)

/-- A track has no placeholders. -/
theorem track_placeholders {p q : Pool α} {name channel : String} {setpoint feedback : ExprId}
    {tolerance settle : α} {a : Action α}
    (h : track name channel setpoint feedback tolerance settle p = .ok a q) :
    a.placeholders = [] := by
  obtain ⟨_, _, _, _, _, _, _, -, -, -, -, rfl⟩ := track_eq_ok h
  rfl

/-- The placeholders of an action that was built stand in the pool. -/
theorem Built.placeholders_lt {p : Pool α} {a : Action α} (h : a.Built p) :
    ∀ id ∈ a.placeholders, id < p.size := by
  induction h with
  | track _ h => simp [track_placeholders h]
  | ramp hp h => exact ramp_placeholders hp.wellFormed h
  | wait name duration => simp [placeholders, Action.wait, positions, scalePlaceholders]
  | wrap _ name ih => exact ih
  | handling _ c ih => rwa [placeholders_handling]
  | raising _ c condition ih => rwa [placeholders_raising]
  | later _ hp hq ih =>
      exact fun id hid => Nat.lt_of_lt_of_le (ih id hid) (hp.extends_of_follows hq).size_le

end Action

/-! ### Commands -/

/-- The loop of a scale: it is limited from the scale before, less a step while
cancellation is requested. -/
structure Pool.HoldsScale (p : Pool α) (deceleration : α) (cancel scaleState scale : ExprId)
    (parts : ScaleParts) : Prop where
  scale : p.Holds scale (.limit parts.change parts.stopped parts.full)
  change : p.Holds parts.change (.binary .sub parts.previous parts.step)
  previous : p.Holds parts.previous (.pre scaleState (.double 1))
  step : p.Holds parts.step (.select parts.requested parts.rate parts.stopped)
  requested : p.Holds parts.requested (.pre cancel (.boolean false))
  /-- With folding on, a division by one is left out. -/
  rate : p.Holds parts.rate (.binary .div parts.period parts.seconds) ∨
    parts.rate = parts.period ∧
      ∃ w : Value α, w.canonical = (Value.double deceleration).canonical ∧ w.isOne = true
  period : p.Holds parts.period (.clock .period)
  seconds : p.Holds parts.seconds (.constant (.double deceleration))
  stopped : p.Holds parts.stopped (.constant (.double 0))
  full : p.Holds parts.full (.constant (.double 1))

theorem Pool.HoldsScale.extend {p q : Pool α} (hq : p.Extends q) {deceleration : α}
    {cancel scaleState scale : ExprId} {parts : ScaleParts}
    (h : p.HoldsScale deceleration cancel scaleState scale parts) :
    q.HoldsScale deceleration cancel scaleState scale parts where
  scale := h.scale.extend hq
  change := h.change.extend hq
  previous := h.previous.extend hq
  step := h.step.extend hq
  requested := h.requested.extend hq
  rate := h.rate.imp_left (Holds.extend hq)
  period := h.period.extend hq
  seconds := h.seconds.extend hq
  stopped := h.stopped.extend hq
  full := h.full.extend hq

namespace Command

open Pool

/-- A rate is no literal. -/
theorem literal?_rate {p : Pool α} {rate period seconds : ExprId}
    (hperiod : p.Holds period (.clock .period))
    (hrate : p.Holds rate (.binary .div period seconds) ∨ rate = period) :
    p.literal? rate = none := by
  rcases hrate with hdiv | rfl
  · exact hdiv.literal?_eq_none rfl
  · exact hperiod.literal?_eq_none rfl

/-- **What is built is the loop of a scale.** -/
theorem buildScale_holds {p q : Pool α} (hp : p.WellFormed) {deceleration : α}
    {cancel scaleState scale : ExprId} {parts : ScaleParts}
    (h : buildScale deceleration cancel scaleState p = .ok (scale, parts) q) :
    p.Extends q ∧ q.HoldsScale deceleration cancel scaleState scale parts := by
  obtain ⟨p₁, p₂, p₃, p₄, p₅, p₆, p₇, p₈, p₉, h₁, h₂, h₃, h₄, h₅, h₆, h₇, h₈, h₉, h₁₀⟩ :=
    buildScale_eq_ok h
  obtain ⟨_, -, hp₁⟩ := build_yields hp h₁
  have hprevious := build_holds hp (p.simplify_pre _ _) h₁
  have hp₂ := clock_yields hp₁.wellFormed h₂
  have hperiod : p₂.Holds parts.period (.clock .period) := intern_holds hp₁.wellFormed h₂
  have hp₃ := constant_yields hp₂.wellFormed h₃
  have hseconds : p₃.Holds parts.seconds (.constant (.double deceleration)) := intern_holds hp₂.wellFormed h₃
  obtain ⟨_, -, hp₄⟩ := build_yields hp₃.wellFormed h₄
  obtain ⟨w, hw, hone⟩ := hseconds.literal?_eq_some
  have hrate := build_div hp₃.wellFormed ((hperiod.extend hp₃.extends).literal?_eq_none rfl) hw h₄
  have hp₅ := constant_yields hp₄.wellFormed h₅
  have hstopped : p₅.Holds parts.stopped (.constant (.double 0)) := intern_holds hp₄.wellFormed h₅
  have hp₆ := constant_yields hp₅.wellFormed h₆
  have hfull : p₆.Holds parts.full (.constant (.double 1)) := intern_holds hp₅.wellFormed h₆
  obtain ⟨_, -, hp₇⟩ := build_yields hp₆.wellFormed h₇
  have hrequested := build_holds hp₆.wellFormed (p₆.simplify_pre _ _) h₇
  obtain ⟨_, -, hp₈⟩ := build_yields hp₇.wellFormed h₈
  have h₅₇ : p₅.Extends p₇ := hp₆.extends.trans hp₇.extends
  have h₄₇ : p₄.Extends p₇ := hp₅.extends.trans h₅₇
  have h₂₇ : p₂.Extends p₇ := hp₃.extends.trans (hp₄.extends.trans h₄₇)
  -- A scale of zero is a literal, so a step is selected.
  have hne : parts.rate ≠ parts.stopped := by
    intro heq
    obtain ⟨v, hv, -⟩ := (hstopped.extend h₅₇).literal?_eq_some
    rw [← heq, literal?_rate (hperiod.extend h₂₇) (hrate.imp (Holds.extend h₄₇) And.left)] at hv
    cases hv
  have hstep := build_holds hp₇.wellFormed (simplify_select (hrequested.literal?_eq_none rfl) hne) h₈
  obtain ⟨_, -, hp₉⟩ := build_yields hp₈.wellFormed h₉
  have hchange := build_holds hp₈.wellFormed (simplify_sub (hstep.literal?_eq_none rfl)) h₉
  obtain ⟨_, -, hq⟩ := build_yields hp₉.wellFormed h₁₀
  have hscale := build_holds hp₉.wellFormed (simplify_limit (hchange.literal?_eq_none rfl)) h₁₀
  -- Later pools keep what earlier ones hold.
  have h₈' : p₈.Extends q := hp₉.extends.trans hq.extends
  have h₇' : p₇.Extends q := hp₈.extends.trans h₈'
  have h₂' : p₂.Extends q := h₂₇.trans h₇'
  have h₄' : p₄.Extends q := h₄₇.trans h₇'
  refine ⟨hp₁.extends.trans (hp₂.extends.trans h₂'), ?_⟩
  exact {
    scale := hscale
    change := hchange.extend hq.extends
    previous := hprevious.extend (hp₂.extends.trans h₂')
    step := hstep.extend h₈'
    requested := hrequested.extend h₇'
    rate := hrate.imp (Holds.extend h₄') fun ⟨heq, hisOne⟩ => ⟨heq, w, hone, hisOne⟩
    period := hperiod.extend h₂'
    seconds := hseconds.extend (hp₄.extends.trans h₄')
    stopped := hstopped.extend (h₅₇.trans h₇')
    full := hfull.extend (hp₇.extends.trans h₇') }

/-- A command has the loop of its scale in the pool, and is made with two
placeholders that are told apart from each other and from those of the
action. -/
structure Scaled (p : Pool α) (c : Command α) (parts : ScaleParts) : Prop
    extends p.HoldsScale c.deceleration c.cancel c.scaleState c.scale parts where
  positive : Scalar.lt 0 c.deceleration = true
  cancelInput : p.Holds c.cancelInput (.input c.cancelInputName)
  cancelOpen : ∃ number label, p.Holds c.cancel (.placeholder number label)
  stateOpen : ∃ number label, p.Holds c.scaleState (.placeholder number label)
  apart : c.cancel ≠ c.scaleState ∧ c.cancel ∉ c.action.placeholders ∧
    c.scaleState ∉ c.action.placeholders

theorem Scaled.extend {p q : Pool α} (hq : p.Extends q) {c : Command α} {parts : ScaleParts}
    (h : c.Scaled p parts) : c.Scaled q parts where
  toHoldsScale := h.toHoldsScale.extend hq
  positive := h.positive
  cancelInput := h.cancelInput.extend hq
  cancelOpen := by
    obtain ⟨number, label, hcancel⟩ := h.cancelOpen
    exact ⟨number, label, hcancel.extend hq⟩
  stateOpen := by
    obtain ⟨number, label, hstate⟩ := h.stateOpen
    exact ⟨number, label, hstate.extend hq⟩
  apart := h.apart

/-- **A new command** has its loop in the pool. -/
theorem new_scaled {p q : Pool α} (hp : p.WellFormed) {name : String} {scope : Scope}
    {action : Action α} (haction : ∀ id ∈ action.placeholders, id < p.size)
    {deceleration : Option α} {c : Command α}
    (h : new name scope action deceleration p = .ok c q) : ∃ parts, c.Scaled q parts := by
  obtain ⟨d, inner, hpositive, -, -, cancelInput, cancel, scaleState, scale, parts, p₁, p₂, p₃, h₁,
    h₂, h₃, h₄, rfl⟩ := new_eq_ok h
  have hp₁ := input_yields hp h₁
  have hp₂ := placeholder_yields hp₁.wellFormed h₂
  obtain ⟨⟨number, hcancel⟩, hnew⟩ := placeholder_holds hp₁.wellFormed h₂
  have hp₃ := placeholder_yields hp₂.wellFormed h₃
  obtain ⟨⟨number', hscaleState⟩, hnewer⟩ := placeholder_holds hp₂.wellFormed h₃
  obtain ⟨hq, hloop⟩ := buildScale_holds hp₃.wellFormed h₄
  have hbefore : cancel < scaleState := Nat.lt_of_lt_of_le (lt_size_of_kindOf hp₂.kind) hnewer
  have hsize : p.size ≤ cancel := Nat.le_trans hp₁.extends.size_le hnew
  have h₂' : p₂.Extends q := hp₃.extends.trans hq
  refine ⟨parts, ?_⟩
  exact {
    toHoldsScale := hloop
    positive := hpositive
    cancelInput := (intern_holds hp h₁).extend (hp₂.extends.trans h₂')
    cancelOpen := ⟨_, _, hcancel.extend h₂'⟩
    stateOpen := ⟨_, _, hscaleState.extend hq⟩
    apart := ⟨Nat.ne_of_lt hbefore,
      fun hmem => absurd (haction _ hmem) (Nat.not_lt.mpr hsize),
      fun hmem => absurd (haction _ hmem) (Nat.not_lt.mpr (Nat.le_trans hsize
        (Nat.le_of_lt hbefore)))⟩ }

/-- **The scale of a command that was built.** -/
theorem Built.scaled {p : Pool α} {c : Command α} (h : c.Built p) : ∃ parts, c.Scaled p parts := by
  induction h with
  | new hp haction h => exact new_scaled hp.wellFormed haction.placeholders_lt h
  | withOverride hp _ h ih =>
      obtain ⟨effective, heffective, rfl⟩ := withOverride_eq_ok h
      obtain ⟨_, -, hq⟩ := build_yields hp.wellFormed heffective
      obtain ⟨parts, hscaled⟩ := ih
      exact ⟨parts, { hscaled.extend hq.extends with }⟩
  | on _ trigger reaction ih =>
      obtain ⟨parts, hscaled⟩ := ih
      exact ⟨parts, { hscaled with }⟩
  | persisting _ handle ih =>
      obtain ⟨parts, hscaled⟩ := ih
      exact ⟨parts, { hscaled with }⟩
  | later _ hp hq ih =>
      obtain ⟨parts, hscaled⟩ := ih
      exact ⟨parts, hscaled.extend (hp.extends_of_follows hq)⟩

end Command

end SignalNet
