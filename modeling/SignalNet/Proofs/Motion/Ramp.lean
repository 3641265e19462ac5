import SignalNet.Proofs.Compile.Discipline
import SignalNet.Proofs.Motion.Scale
import SignalNet.Proofs.Pool.Inherited

/-!
# The loop of a ramp

A ramp leaves a loop in its pool: the next position is where the ramp comes
from, plus a step toward the target that is kept within a stride.  Where it
comes from is its start in the first cycle, and its own position in every
later one, which is a placeholder behind a delay (`Pool.HoldsRamp`).

Folding leaves the way from the origin to the target alone
(`Pool.Approaches`).  In the stride it moves the rate to the right of the
product with the period, and leaves the rate out if it is one
(`Pool.HoldsStride`).

`Action.ramp_holds` says this of a new ramp, and `Action.RampOf.holds` of all
actions that are made from one.
-/

namespace SignalNet

open Computing

variable {α : Type} [Scalar α]

/-! ### The loop in the pool -/

namespace Pool

/-- The next position and the distance of a ramp look at one target. -/
structure Approaches (p : Pool α) (next distance : ExprId) (parts : RampParts) : Prop where
  remaining : p.Holds parts.remaining (.binary .sub parts.target next)
  next : p.Holds next (.binary .add parts.origin parts.delta)
  delta : p.Holds parts.delta (.limit parts.left parts.back parts.step)
  left : p.Holds parts.left (.binary .sub parts.target parts.origin)
  distance : p.Holds distance (.unary .abs parts.remaining)

theorem Approaches.extend {p q : Pool α} (hq : p.Extends q) {next distance : ExprId}
    {parts : RampParts} (h : p.Approaches next distance parts) :
    q.Approaches next distance parts where
  next := h.next.extend hq
  delta := h.delta.extend hq
  left := h.left.extend hq
  remaining := h.remaining.extend hq
  distance := h.distance.extend hq

/-- Where a ramp comes from: its start in the first cycle, and its own position
in every later one. -/
structure HoldsOrigin (p : Pool α) (start position origin : ExprId) (parts : RampOrigin) :
    Prop where
  origin : p.Holds origin (.select parts.started parts.previous start)
  started : p.Holds parts.started (.pre parts.on (.boolean false))
  on : p.Holds parts.on (.constant (.boolean true))
  previous : p.Holds parts.previous (.pre position (.double 0))

theorem HoldsOrigin.extend {p q : Pool α} (hq : p.Extends q) {start position origin : ExprId}
    {parts : RampOrigin} (h : p.HoldsOrigin start position origin parts) :
    q.HoldsOrigin start position origin parts where
  origin := h.origin.extend hq
  started := h.started.extend hq
  on := h.on.extend hq
  previous := h.previous.extend hq

/-- The two ends of the stride of a ramp. -/
structure HoldsStride (p : Pool α) (maxRate : α) (scale back step : ExprId)
    (parts : RampStride) : Prop where
  back : p.Holds back (.unary .neg step)
  step : p.Holds step (.binary .mul parts.length scale)
  /-- With folding on, the rate stands on the right, or is left out if it is
  one. -/
  length : p.Holds parts.length (.binary .mul parts.rate parts.period) ∨
    p.Holds parts.length (.binary .mul parts.period parts.rate) ∨
    parts.length = parts.period ∧
      ∃ w : Value α, w.canonical = (Value.double maxRate).canonical ∧ w.isOne = true
  rate : p.Holds parts.rate (.constant (.double maxRate))
  period : p.Holds parts.period (.clock .period)

theorem HoldsStride.extend {p q : Pool α} (hq : p.Extends q) {maxRate : α}
    {scale back step : ExprId} {parts : RampStride}
    (h : p.HoldsStride maxRate scale back step parts) :
    q.HoldsStride maxRate scale back step parts where
  back := h.back.extend hq
  step := h.step.extend hq
  length := h.length.imp (Holds.extend hq) (Or.imp_left (Holds.extend hq))
  rate := h.rate.extend hq
  period := h.period.extend hq

/-- Sharing does not take a number for zero. -/
def NoZero (a : α) : Prop :=
  ∀ w : Value α, w.canonical = (Value.double a).canonical → w.isZero = false

/-- The loop of a ramp.  About the stride something is only said where sharing
does not take the rate for zero. -/
structure HoldsRamp (p : Pool α) (maxRate : α) (start target position scale next distance : ExprId)
    (parts : RampParts) (origin : RampOrigin) (stride : RampStride) : Prop
    extends p.Approaches next distance parts where
  target : parts.target = target
  origin : p.HoldsOrigin start position parts.origin origin
  stride : NoZero maxRate → p.HoldsStride maxRate scale parts.back parts.step stride
  positionOpen : ∃ number label, p.Holds position (.placeholder number label)
  scaleOpen : ∃ number label, p.Holds scale (.placeholder number label)

theorem HoldsRamp.extend {p q : Pool α} (hq : p.Extends q) {maxRate : α}
    {start target position scale next distance : ExprId} {parts : RampParts}
    {origin : RampOrigin} {stride : RampStride}
    (h : p.HoldsRamp maxRate start target position scale next distance parts origin stride) :
    q.HoldsRamp maxRate start target position scale next distance parts origin stride where
  toApproaches := h.toApproaches.extend hq
  target := h.target
  origin := h.origin.extend hq
  stride hrate := (h.stride hrate).extend hq
  positionOpen := by
    obtain ⟨number, label, hposition⟩ := h.positionOpen
    exact ⟨number, label, hposition.extend hq⟩
  scaleOpen := by
    obtain ⟨number, label, hscale⟩ := h.scaleOpen
    exact ⟨number, label, hscale.extend hq⟩

/-! ### What folding makes of a ramp -/

/-- Operators are left out only where their operand is an operator of the same
sort. -/
theorem simplify_unary {p : Pool α} {x : ExprId} {op : BinaryOp} {a b : ExprId}
    (hx : p.Holds x (.binary op a b)) (outer : UnaryOp) (kind : Kind) :
    p.simplify (.unary outer x) kind = .keep := by
  have hnone : p.evalLiterals? (.unary outer x) = none :=
    evalLiterals?_eq_none (by simp [Form.dependencies]) (hx.literal?_eq_none rfl)
  obtain ⟨n, hn, hform⟩ := hx
  have hbinary : p.form? x = some (.binary op a b) := by
    cases hform' : n.form <;> simp_all [Form.canonical, form?]
  unfold simplify
  rw [hnone]
  simp only [simplifyUnary, hbinary]

/-- The period is multiplied with a literal, unless that is zero or one. -/
theorem simplify_period_mul {p : Pool α} {x y : ExprId} {w : Value α}
    (hx : p.Holds x (.clock .period)) (hy : p.literal? y = some w) (hw : w.isZero = false)
    (kind : Kind) :
    p.simplify (.binary .mul x y) kind = if w.isOne then .existing x else .keep := by
  have hliteral : p.literal? x = none := hx.literal?_eq_none rfl
  have hmerge : p.mergeLiterals .mul x w = .keep := by
    obtain ⟨n, hn, hform⟩ := hx
    have hclock : p.form? x = some (.clock .period) := by
      cases hform' : n.form <;> simp_all [Form.canonical, form?]
    simp [mergeLiterals, hclock]
  rw [simplify_operator List.mem_cons_self hliteral]
  unfold simplifyBinary
  simp [hliteral, hy, simplifyRight, hw, hmerge]

/-- A literal times the period. -/
theorem build_mul_period {p q : Pool α} (hp : p.WellFormed) {x y id : ExprId} {w : Value α}
    (hx : p.literal? x = some w) (hy : p.Holds y (.clock .period)) (hw : w.isZero = false)
    (h : build (.binary .mul x y) p = .ok id q) :
    q.Holds id (.binary .mul x y) ∨ q.Holds id (.binary .mul y x) ∨ id = y ∧ w.isOne = true := by
  have hliteral : p.literal? y = none := hy.literal?_eq_none rfl
  obtain ⟨fuel, kind, scope, hsettle⟩ := build_settles h
  by_cases hfolding : p.folding = true
  · rw [if_pos hfolding] at hsettle
    rw [simplify_operator (List.mem_cons_of_mem _ List.mem_cons_self) hliteral] at hsettle
    unfold simplifyBinary at hsettle
    simp only [hx, hliteral] at hsettle
    split at hsettle
    · -- The literal moves to the right.
      cases fuel with
      | zero => exact Or.inl (intern_holds hp hsettle)
      | succ fuel =>
          obtain ⟨scope', kind', -, -, hsettle'⟩ := buildWithin_settles hsettle
          rw [if_pos hfolding, simplify_period_mul hy hx hw] at hsettle'
          by_cases hone : w.isOne = true
          · rw [if_pos hone] at hsettle'
            exact Or.inr (Or.inr ⟨(pure_eq_ok.mp hsettle').1.symm, hone⟩)
          · rw [if_neg hone] at hsettle'
            exact Or.inr (Or.inl (intern_holds hp hsettle'))
    · exact Or.inl (intern_holds hp hsettle)
  · rw [if_neg hfolding] at hsettle
    exact Or.inl (intern_holds hp hsettle)

/-! ### Building a ramp -/

/-- The previous position is not folded into a start that was there before the
position. -/
theorem buildOrigin_holds {p q : Pool α} (hp : p.WellFormed) {start position origin : ExprId}
    {parts : RampOrigin} (hbefore : start < position)
    (h : buildOrigin start position p = .ok (origin, parts) q) :
    p.Extends q ∧ q.WellFormed ∧ q.HoldsOrigin start position origin parts := by
  obtain ⟨p₁, p₂, p₃, h₁, h₂, h₃, h₄⟩ := buildOrigin_eq_ok h
  have hp₁ := constant_yields hp h₁
  have hon : p₁.Holds parts.on (.constant (.boolean true)) := intern_holds hp h₁
  obtain ⟨_, -, hp₂⟩ := build_yields hp₁.wellFormed h₂
  have hstarted := build_holds hp₁.wellFormed (p₁.simplify_pre _ _) h₂
  obtain ⟨_, -, hp₃⟩ := build_yields hp₂.wellFormed h₃
  have hprevious := build_holds hp₂.wellFormed (p₂.simplify_pre _ _) h₃
  have hne : parts.previous ≠ start := by
    obtain ⟨n, hn, hform⟩ := hprevious
    have hlt : position < parts.previous := by
      refine hp₃.wellFormed.before hn position ?_
      rw [Node.dependencies, Form.canonical_dependencies hform]
      exact List.mem_singleton.mpr rfl
    exact Nat.ne_of_gt (Nat.lt_trans hbefore hlt)
  obtain ⟨_, -, hq⟩ := build_yields hp₃.wellFormed h₄
  have horigin := build_holds hp₃.wellFormed (simplify_select
    ((hstarted.extend hp₃.extends).literal?_eq_none rfl) hne) h₄
  have e₂ : p₂.Extends q := hp₃.extends.trans hq.extends
  have e₁ : p₁.Extends q := hp₂.extends.trans e₂
  exact ⟨hp₁.extends.trans e₁, hq.wellFormed,
    { origin := horigin
      started := hstarted.extend e₂
      on := hon.extend e₁
      previous := hprevious.extend hq.extends }⟩

theorem buildStride_holds {p q : Pool α} (hp : p.WellFormed) {maxRate : α}
    {scale back step : ExprId} {number : Nat} {label : String}
    (hscale : p.Holds scale (.placeholder number label)) {parts : RampStride}
    (h : buildStride maxRate scale p = .ok (back, step, parts) q) :
    p.Extends q ∧ q.WellFormed ∧
      (NoZero maxRate → q.HoldsStride maxRate scale back step parts) := by
  obtain ⟨p₁, p₂, p₃, p₄, h₁, h₂, h₃, h₄, h₅⟩ := buildStride_eq_ok h
  have hp₁ := constant_yields hp h₁
  have hrate : p₁.Holds parts.rate (.constant (.double maxRate)) := intern_holds hp h₁
  have hp₂ := clock_yields hp₁.wellFormed h₂
  have hperiod : p₂.Holds parts.period (.clock .period) :=
    intern_holds hp₁.wellFormed h₂
  obtain ⟨_, -, hp₃⟩ := build_yields hp₂.wellFormed h₃
  obtain ⟨_, -, hp₄⟩ := build_yields hp₃.wellFormed h₄
  obtain ⟨_, -, hq⟩ := build_yields hp₄.wellFormed h₅
  have e₃ : p₃.Extends q := hp₄.extends.trans hq.extends
  have h₃' : p.Extends p₃ := hp₁.extends.trans (hp₂.extends.trans hp₃.extends)
  refine ⟨h₃'.trans e₃, hq.wellFormed, ?_⟩
  intro hnonzero
  obtain ⟨w, hw, hcanonical⟩ := (hrate.extend hp₂.extends).literal?_eq_some
  have hlength := build_mul_period hp₂.wellFormed hw hperiod (hnonzero w hcanonical) h₃
  have hnone : p₃.literal? parts.length = none := by
    rcases hlength with hmul | hmul | ⟨heq, -⟩
    · exact hmul.literal?_eq_none rfl
    · exact hmul.literal?_eq_none rfl
    · rw [heq]
      exact (hperiod.extend hp₃.extends).literal?_eq_none rfl
  have hstep := build_holds hp₃.wellFormed
    (simplify_binary hnone ((hscale.extend h₃').literal?_eq_none rfl)) h₄
  exact {
    back := build_holds hp₄.wellFormed (simplify_unary hstep .neg) h₅
    step := hstep.extend hq.extends
    length := hlength.imp (Holds.extend e₃) (Or.imp (Holds.extend e₃) fun ⟨heq, hone⟩ =>
      ⟨heq, w, hcanonical, hone⟩)
    rate := hrate.extend (hp₂.extends.trans (hp₃.extends.trans e₃))
    period := hperiod.extend (hp₃.extends.trans e₃) }

/-- Folding leaves the way of a ramp alone, whatever its target is. -/
theorem buildApproach_holds {p q : Pool α} (hp : p.WellFormed)
    {target origin back step next distance : ExprId} {form : Form α}
    (horigin : p.Holds origin form) (hform : form.literal? = none) {parts : RampParts}
    (h : buildApproach target origin back step p = .ok (next, distance, parts) q) :
    p.Extends q ∧ q.Approaches next distance parts ∧ parts.target = target ∧
      parts.origin = origin ∧ parts.back = back ∧ parts.step = step := by
  obtain ⟨⟨htarget, horigin', hback, hstep⟩, p₁, p₂, p₃, p₄, h₁, h₂, h₃, h₄, h₅⟩ :=
    buildApproach_eq_ok h
  obtain ⟨_, -, hp₁⟩ := build_yields hp h₁
  have hleft := build_holds hp (simplify_sub (horigin.literal?_eq_none hform)) h₁
  obtain ⟨_, -, hp₂⟩ := build_yields hp₁.wellFormed h₂
  have hdelta := build_holds hp₁.wellFormed (simplify_limit (hleft.literal?_eq_none rfl)) h₂
  obtain ⟨_, -, hp₃⟩ := build_yields hp₂.wellFormed h₃
  have hnext := build_holds hp₂.wellFormed (simplify_binary
    ((horigin.extend (hp₁.extends.trans hp₂.extends)).literal?_eq_none hform)
    (hdelta.literal?_eq_none rfl)) h₃
  obtain ⟨_, -, hp₄⟩ := build_yields hp₃.wellFormed h₄
  have hremaining := build_holds hp₃.wellFormed (simplify_sub (hnext.literal?_eq_none rfl)) h₄
  obtain ⟨_, -, hq⟩ := build_yields hp₄.wellFormed h₅
  have hdistance := build_holds hp₄.wellFormed (simplify_unary hremaining .abs) h₅
  subst htarget horigin' hback hstep
  have e₃ : p₃.Extends q := hp₄.extends.trans hq.extends
  have e₂ : p₂.Extends q := hp₃.extends.trans e₃
  have e₁ : p₁.Extends q := hp₂.extends.trans e₂
  refine ⟨hp₁.extends.trans e₁, ?_, rfl, rfl, rfl, rfl⟩
  exact {
    next := hnext.extend e₃
    delta := hdelta.extend e₂
    left := hleft.extend e₁
    remaining := hremaining.extend hq.extends
    distance := hdistance }

end Pool

/-! ### Actions -/

namespace Action

open Pool

/-- **What is built is the loop of a ramp.**  The ends of the ramp were there
before, and its two placeholders are new. -/
theorem ramp_holds {p q : Pool α} (hp : p.WellFormed) {name channel : String}
    {start target : ExprId} {maxRate : α} {a : Action α}
    (h : ramp name channel start target maxRate p = .ok a q) :
    Scalar.lt 0 maxRate = true ∧ ∃ position scale next distance parts origin stride,
      a = basic name (.ramp channel position scale next distance) [] ∧ position < scale ∧
      q.HoldsRamp maxRate start target position scale next distance parts origin stride := by
  obtain ⟨⟨hpositive, hstart, -⟩, scope, position, scale, origin, back, step, next, distance,
    originParts, strideParts, parts, p₁, p₂, p₃, p₄, h₁, h₂, h₃, h₄, h₅, rfl⟩ := ramp_eq_ok h
  have hp₁ := placeholder_yields hp h₁
  obtain ⟨⟨number, hposition⟩, hnew⟩ := placeholder_holds hp h₁
  have hp₂ := placeholder_yields hp₁.wellFormed h₂
  obtain ⟨⟨number', hscale⟩, hnewer⟩ := placeholder_holds hp₁.wellFormed h₂
  -- The start was there before the position.
  obtain ⟨e₂₃, hp₃, horigin⟩ :=
    buildOrigin_holds hp₂.wellFormed (Nat.lt_of_lt_of_le hstart hnew) h₃
  obtain ⟨e₃₄, hp₄, hstride⟩ := buildStride_holds hp₃ (hscale.extend e₂₃) h₄
  obtain ⟨e₄₅, happroach, htarget, rfl, rfl, rfl⟩ :=
    buildApproach_holds hp₄ (horigin.origin.extend e₃₄) rfl h₅
  have e₃₅ := e₃₄.trans e₄₅
  have e₂₅ := e₂₃.trans e₃₅
  refine ⟨hpositive, position, scale, next, distance, parts, originParts, strideParts, rfl,
    Nat.lt_of_lt_of_le (lt_size_of_kindOf hp₁.kind) hnewer, ?_⟩
  exact {
    toApproaches := happroach
    target := htarget
    origin := horigin.extend e₃₅
    stride := fun hnonzero => (hstride hnonzero).extend e₄₅
    positionOpen := ⟨_, _, hposition.extend (hp₂.extends.trans e₂₅)⟩
    scaleOpen := ⟨_, _, hscale.extend e₂₅⟩ }

/-- Actions that are made from one ramp, by calls: it may be wrapped, and handle
and raise exceptions, in any way. -/
inductive RampOf (channel : String) (start target : ExprId) (maxRate : α) :
    Pool α → Action α → Prop
  | ramp {p q : Pool α} (hp : p.Reachable) {name : String} {a : Action α}
      (h : Action.ramp name channel start target maxRate p = .ok a q) :
      RampOf channel start target maxRate q a
  | wrap {p : Pool α} {a : Action α} (h : RampOf channel start target maxRate p a)
      (name : String) : RampOf channel start target maxRate p (a.wrap name)
  | handling {p : Pool α} {a : Action α} (h : RampOf channel start target maxRate p a)
      (c : ExceptionClass) : RampOf channel start target maxRate p (a.handling c)
  | raising {p : Pool α} {a : Action α} (h : RampOf channel start target maxRate p a)
      (c : ExceptionClass) (condition : ExprId) :
      RampOf channel start target maxRate p (a.raising c condition)
  | later {p q : Pool α} {a : Action α} (h : RampOf channel start target maxRate p a)
      (hp : p.Reachable) (hq : p.Follows q) : RampOf channel start target maxRate q a

variable {channel : String} {start target : ExprId} {maxRate : α}

theorem RampOf.built {p : Pool α} {a : Action α} (h : RampOf channel start target maxRate p a) :
    a.Built p := by
  induction h with
  | ramp hp h => exact .ramp hp h
  | wrap _ name ih => exact ih.wrap name
  | handling _ c ih => exact ih.handling c
  | raising _ c condition ih => exact ih.raising c condition
  | later _ hp hq ih => exact ih.later hp hq

omit [Scalar α] in
theorem motion_handling (a : Action α) (c : ExceptionClass) : (a.handling c).motion = a.motion := by
  cases a <;> rfl

omit [Scalar α] in
theorem motion_raising (a : Action α) (c : ExceptionClass) (condition : ExprId) :
    (a.raising c condition).motion = a.motion := by
  cases a <;> rfl

/-- **An action that is made from a ramp** has its loop in the pool. -/
theorem RampOf.holds {p : Pool α} {a : Action α} (h : RampOf channel start target maxRate p a) :
    Scalar.lt 0 maxRate = true ∧ ∃ position scale next distance parts origin stride,
      a.motion = .ramp channel position scale next distance ∧ position < scale ∧
      p.HoldsRamp maxRate start target position scale next distance parts origin stride := by
  induction h with
  | ramp hp h =>
      obtain ⟨hpositive, position, scale, next, distance, parts, origin, stride, rfl, hbefore,
        hholds⟩ := ramp_holds hp.wellFormed h
      exact ⟨hpositive, position, scale, next, distance, parts, origin, stride, rfl, hbefore,
        hholds⟩
  | wrap _ name ih => exact ih
  | handling _ c ih => rwa [motion_handling]
  | raising _ c condition ih => rwa [motion_raising]
  | later _ hp hq ih =>
      obtain ⟨hpositive, position, scale, next, distance, parts, origin, stride, hmotion, hbefore,
        hholds⟩ := ih
      exact ⟨hpositive, position, scale, next, distance, parts, origin, stride, hmotion, hbefore,
        hholds.extend (hp.extends_of_follows hq)⟩

end Action

end SignalNet
