import SignalNet.Motion.Command
import SignalNet.Proofs.Pool.Construction
import SignalNet.Proofs.Pool.Inherited

/-!
# The parts of actions and commands

An action or a command is built by a fixed sequence of calls.  A ramp opens two
placeholders and is then built in three parts: the origin it comes from, the
stride it makes in a cycle, and the way between the origin and the target.  A
command opens an input and two placeholders, and then builds its scale.

What such a construction has done when it succeeds is said once, by one lemma
for each part (`Pool.buildStride_eq_ok` and its like) and for the whole
(`Action.track_eq_ok`, `Action.ramp_eq_ok`, `Command.new_eq_ok` and
`Command.withOverride_eq_ok`).  They list the checks that were passed, the calls
with the pools between them, and what was returned.  Kinds, scopes, placeholders
and forms of actions and commands all follow from these lists.
-/

namespace SignalNet

open Computing

variable {α : Type} [Scalar α]

/-! ### Expressions behind the parts -/

/-- The expressions between the next position of a ramp and its target. -/
structure RampParts where
  origin : ExprId
  /-- The step toward the target. -/
  delta : ExprId
  /-- What is left of the way before the step. -/
  left : ExprId
  back : ExprId
  step : ExprId
  target : ExprId
  /-- What is left of the way behind the step. -/
  remaining : ExprId

/-- The expressions behind the origin of a ramp. -/
structure RampOrigin where
  /-- A cycle has gone by. -/
  started : ExprId
  on : ExprId
  previous : ExprId

/-- The expressions behind the stride of a ramp. -/
structure RampStride where
  /-- How far the ramp moves in a cycle at full speed. -/
  length : ExprId
  rate : ExprId
  period : ExprId

/-- The expressions behind the scale of a command. -/
structure ScaleParts where
  /-- The scale before it is limited. -/
  change : ExprId
  previous : ExprId
  step : ExprId
  requested : ExprId
  rate : ExprId
  period : ExprId
  seconds : ExprId
  stopped : ExprId
  full : ExprId

/-! ### Parts of a ramp -/

namespace Pool

/-- Build the place that a ramp comes from. -/
def buildOrigin (start position : ExprId) : Building α (ExprId × RampOrigin) := do
  let on ← Pool.constant (.boolean true)
  let started ← Pool.pre on (.boolean false)
  let previous ← Pool.pre position (.double 0)
  let origin ← Pool.select started previous start
  return (origin, { started, on, previous })

/-- Build the two ends of a stride. -/
def buildStride (maxRate : α) (scale : ExprId) : Building α (ExprId × ExprId × RampStride) := do
  let rate ← Pool.constant (.double maxRate)
  let period ← Pool.clock .period
  let length ← Pool.binary .mul rate period
  let step ← Pool.binary .mul length scale
  let back ← Pool.unary .neg step
  return (back, step, { length, rate, period })

/-- Build the next position and what is then left of the way. -/
def buildApproach (target origin back step : ExprId) :
    Building α (ExprId × ExprId × RampParts) := do
  let left ← Pool.binary .sub target origin
  let delta ← Pool.limit left back step
  let next ← Pool.binary .add origin delta
  let remaining ← Pool.binary .sub target next
  let distance ← Pool.unary .abs remaining
  return (next, distance, { origin, delta, left, back, step, target, remaining })

variable {p q : Pool α}

theorem buildOrigin_eq_ok {start position origin : ExprId} {parts : RampOrigin}
    (h : buildOrigin start position p = .ok (origin, parts) q) :
    ∃ p₁ p₂ p₃, constant (.boolean true) p = .ok parts.on p₁ ∧
      pre parts.on (.boolean false) p₁ = .ok parts.started p₂ ∧
      pre position (.double 0) p₂ = .ok parts.previous p₃ ∧
      select parts.started parts.previous start p₃ = .ok origin q := by
  obtain ⟨on, p₁, h₁, h⟩ := bind_eq_ok.mp h
  obtain ⟨started, p₂, h₂, h⟩ := bind_eq_ok.mp h
  obtain ⟨previous, p₃, h₃, h⟩ := bind_eq_ok.mp h
  obtain ⟨_, p₄, h₄, h⟩ := bind_eq_ok.mp h
  obtain ⟨heq, rfl⟩ := pure_eq_ok.mp h
  cases heq
  exact ⟨p₁, p₂, p₃, h₁, h₂, h₃, h₄⟩

theorem buildStride_eq_ok {maxRate : α} {scale back step : ExprId} {parts : RampStride}
    (h : buildStride maxRate scale p = .ok (back, step, parts) q) :
    ∃ p₁ p₂ p₃ p₄, constant (.double maxRate) p = .ok parts.rate p₁ ∧
      clock .period p₁ = .ok parts.period p₂ ∧
      binary .mul parts.rate parts.period p₂ = .ok parts.length p₃ ∧
      binary .mul parts.length scale p₃ = .ok step p₄ ∧
      unary .neg step p₄ = .ok back q := by
  obtain ⟨rate, p₁, h₁, h⟩ := bind_eq_ok.mp h
  obtain ⟨period, p₂, h₂, h⟩ := bind_eq_ok.mp h
  obtain ⟨length, p₃, h₃, h⟩ := bind_eq_ok.mp h
  obtain ⟨_, p₄, h₄, h⟩ := bind_eq_ok.mp h
  obtain ⟨_, p₅, h₅, h⟩ := bind_eq_ok.mp h
  obtain ⟨heq, rfl⟩ := pure_eq_ok.mp h
  cases heq
  exact ⟨p₁, p₂, p₃, p₄, h₁, h₂, h₃, h₄, h₅⟩

theorem buildApproach_eq_ok {target origin back step next distance : ExprId} {parts : RampParts}
    (h : buildApproach target origin back step p = .ok (next, distance, parts) q) :
    (parts.target = target ∧ parts.origin = origin ∧ parts.back = back ∧ parts.step = step) ∧
    ∃ p₁ p₂ p₃ p₄, binary .sub target origin p = .ok parts.left p₁ ∧
      limit parts.left back step p₁ = .ok parts.delta p₂ ∧
      binary .add origin parts.delta p₂ = .ok next p₃ ∧
      binary .sub target next p₃ = .ok parts.remaining p₄ ∧
      unary .abs parts.remaining p₄ = .ok distance q := by
  obtain ⟨left, p₁, h₁, h⟩ := bind_eq_ok.mp h
  obtain ⟨delta, p₂, h₂, h⟩ := bind_eq_ok.mp h
  obtain ⟨_, p₃, h₃, h⟩ := bind_eq_ok.mp h
  obtain ⟨remaining, p₄, h₄, h⟩ := bind_eq_ok.mp h
  obtain ⟨_, p₅, h₅, h⟩ := bind_eq_ok.mp h
  obtain ⟨heq, rfl⟩ := pure_eq_ok.mp h
  cases heq
  exact ⟨⟨rfl, rfl, rfl, rfl⟩, p₁, p₂, p₃, p₄, h₁, h₂, h₃, h₄, h₅⟩

end Pool

/-! ### Actions -/

namespace Action

open Pool

/-- A track has compared the distance between its setpoint and its feedback. -/
theorem track_eq_ok {p q : Pool α} {name channel : String} {setpoint feedback : ExprId}
    {tolerance settle : α} {a : Action α}
    (h : track name channel setpoint feedback tolerance settle p = .ok a q) :
    ∃ difference error bound within p₁ p₂ p₃,
      binary .sub setpoint feedback p = .ok difference p₁ ∧
      unary .abs difference p₁ = .ok error p₂ ∧
      constant (.double tolerance) p₂ = .ok bound p₃ ∧
      compare .lessEq error bound p₃ = .ok within q ∧
      a = basic name (.track channel setpoint within settle) [] := by
  unfold track at h
  split at h
  · exact absurd h throw_ne_ok
  obtain ⟨difference, p₁, h₁, h⟩ := bind_eq_ok.mp h
  obtain ⟨error, p₂, h₂, h⟩ := bind_eq_ok.mp h
  obtain ⟨bound, p₃, h₃, h⟩ := bind_eq_ok.mp h
  obtain ⟨within, p₄, h₄, h⟩ := bind_eq_ok.mp h
  obtain ⟨rfl, rfl⟩ := pure_eq_ok.mp h
  exact ⟨difference, error, bound, within, p₁, p₂, p₃, h₁, h₂, h₃, h₄, rfl⟩

/-- A ramp is made of its placeholders, its origin, its stride and the way
between. -/
theorem ramp_eq (name channel : String) (start target : ExprId) (maxRate : α) :
    ramp name channel start target maxRate =
      if !(Scalar.isFinite maxRate && Scalar.lt 0 maxRate) then
        throw (.invalidArgument (.rampRate maxRate))
      else do
        let p ← get
        let startScope ← Building.ofExcept (p.scopeOf start)
        let scope ← Building.ofExcept (p.joinScopes startScope [target])
        let position ← Pool.placeholder (name ++ ".position") .double scope
        let scale ← Pool.placeholder (name ++ ".override") .double scope
        let (origin, _) ← buildOrigin start position
        let (back, step, _) ← buildStride maxRate scale
        let (next, distance, _) ← buildApproach target origin back step
        return basic name (.ramp channel position scale next distance) [] := by
  simp only [ramp, buildOrigin, buildStride, buildApproach, bind_assoc, pure_bind]

/-- A ramp has a positive rate, both of its ends were there before, and it is
built part by part. -/
theorem ramp_eq_ok {p q : Pool α} {name channel : String} {start target : ExprId} {maxRate : α}
    {a : Action α} (h : ramp name channel start target maxRate p = .ok a q) :
    (Scalar.lt 0 maxRate = true ∧ start < p.size ∧ target < p.size) ∧
    ∃ scope position scale origin back step next distance originParts stride parts p₁ p₂ p₃ p₄,
      placeholder (name ++ ".position") .double scope p = .ok position p₁ ∧
      placeholder (name ++ ".override") .double scope p₁ = .ok scale p₂ ∧
      buildOrigin start position p₂ = .ok (origin, originParts) p₃ ∧
      buildStride maxRate scale p₃ = .ok (back, step, stride) p₄ ∧
      buildApproach target origin back step p₄ = .ok (next, distance, parts) q ∧
      a = basic name (.ramp channel position scale next distance) [] := by
  rw [ramp_eq] at h
  split at h
  · exact absurd h throw_ne_ok
  next hgood =>
  obtain ⟨-, hpositive⟩ := Bool.and_eq_true_iff.mp (by simpa using hgood)
  obtain ⟨_, _, hget, h⟩ := bind_eq_ok.mp h
  obtain ⟨rfl, rfl⟩ := get_eq_ok.mp hget
  obtain ⟨startScope, _, hstart, h⟩ := bind_eq_ok.mp h
  obtain ⟨hstartScope, rfl⟩ := ofExcept_eq_ok.mp hstart
  obtain ⟨scope, _, hscope, h⟩ := bind_eq_ok.mp h
  obtain ⟨hjoined, rfl⟩ := ofExcept_eq_ok.mp hscope
  obtain ⟨position, p₁, h₁, h⟩ := bind_eq_ok.mp h
  obtain ⟨scale, p₂, h₂, h⟩ := bind_eq_ok.mp h
  obtain ⟨⟨origin, originParts⟩, p₃, h₃, h⟩ := bind_eq_ok.mp h
  obtain ⟨⟨back, step, stride⟩, p₄, h₄, h⟩ := bind_eq_ok.mp h
  obtain ⟨⟨next, distance, parts⟩, p₅, h₅, hlast⟩ := bind_eq_ok.mp h
  obtain ⟨rfl, rfl⟩ := pure_eq_ok.mp hlast
  -- Only expressions of the pool have scopes that can be joined.
  obtain ⟨n, hn, -⟩ := scopeOf_eq_ok.mp hstartScope
  have htarget := lt_size_of_joinScopes hjoined target (List.mem_singleton.mpr rfl)
  exact ⟨⟨hpositive, lt_size_of_get? hn, htarget⟩, scope, position, scale, origin, back, step,
    next, distance, originParts, stride, parts, p₁, p₂, p₃, p₄, h₁, h₂, h₃, h₄, h₅, rfl⟩

end Action

/-! ### Commands -/

namespace Command

open Pool

/-- Build the scale of a command from its two placeholders. -/
def buildScale (deceleration : α) (cancel scaleState : ExprId) :
    Building α (ExprId × ScaleParts) := do
  let previous ← Pool.pre scaleState (.double 1)
  let period ← Pool.clock .period
  let seconds ← Pool.constant (.double deceleration)
  let rate ← Pool.binary .div period seconds
  let stopped ← Pool.constant (.double 0)
  let full ← Pool.constant (.double 1)
  let requested ← Pool.pre cancel (.boolean false)
  let step ← Pool.select requested rate stopped
  let change ← Pool.binary .sub previous step
  let scale ← Pool.limit change stopped full
  return (scale, { change, previous, step, requested, rate, period, seconds, stopped, full })

theorem buildScale_eq_ok {p q : Pool α} {deceleration : α} {cancel scaleState scale : ExprId}
    {parts : ScaleParts}
    (h : buildScale deceleration cancel scaleState p = .ok (scale, parts) q) :
    ∃ p₁ p₂ p₃ p₄ p₅ p₆ p₇ p₈ p₉, pre scaleState (.double 1) p = .ok parts.previous p₁ ∧
      clock .period p₁ = .ok parts.period p₂ ∧
      constant (.double deceleration) p₂ = .ok parts.seconds p₃ ∧
      binary .div parts.period parts.seconds p₃ = .ok parts.rate p₄ ∧
      constant (.double 0) p₄ = .ok parts.stopped p₅ ∧
      constant (.double 1) p₅ = .ok parts.full p₆ ∧
      pre cancel (.boolean false) p₆ = .ok parts.requested p₇ ∧
      select parts.requested parts.rate parts.stopped p₇ = .ok parts.step p₈ ∧
      binary .sub parts.previous parts.step p₈ = .ok parts.change p₉ ∧
      limit parts.change parts.stopped parts.full p₉ = .ok scale q := by
  obtain ⟨previous, p₁, h₁, h⟩ := bind_eq_ok.mp h
  obtain ⟨period, p₂, h₂, h⟩ := bind_eq_ok.mp h
  obtain ⟨seconds, p₃, h₃, h⟩ := bind_eq_ok.mp h
  obtain ⟨rate, p₄, h₄, h⟩ := bind_eq_ok.mp h
  obtain ⟨stopped, p₅, h₅, h⟩ := bind_eq_ok.mp h
  obtain ⟨full, p₆, h₆, h⟩ := bind_eq_ok.mp h
  obtain ⟨requested, p₇, h₇, h⟩ := bind_eq_ok.mp h
  obtain ⟨step, p₈, h₈, h⟩ := bind_eq_ok.mp h
  obtain ⟨change, p₉, h₉, h⟩ := bind_eq_ok.mp h
  obtain ⟨_, p₁₀, h₁₀, h⟩ := bind_eq_ok.mp h
  obtain ⟨heq, rfl⟩ := pure_eq_ok.mp h
  cases heq
  exact ⟨p₁, p₂, p₃, p₄, p₅, p₆, p₇, p₈, p₉, h₁, h₂, h₃, h₄, h₅, h₆, h₇, h₈, h₉, h₁₀⟩

/-- A command is made of its placeholders and its scale. -/
theorem new_eq (name : String) (scope : Scope) (action : Action α) (deceleration : Option α) :
    new name scope action deceleration = (do
      let deceleration ← Building.ofExcept (checkDeceleration name deceleration)
      Building.ofExcept (checkScope (← get) scope action)
      let cancelInput ← Pool.input (name ++ ".cancel") .boolean scope
      let cancel ← Pool.placeholder (name ++ ".cancel_requested") .boolean scope
      let scaleState ← Pool.placeholder (name ++ ".scale") .double scope
      let (scale, _) ← buildScale deceleration cancel scaleState
      return { name, scope, action, deceleration, cancelInput, cancel, scaleState, scale,
               effective := scale }) := by
  simp only [new, buildScale, bind_assoc, pure_bind]

theorem checkDeceleration_eq_ok {name : String} {deceleration : Option α} {d : α}
    (h : checkDeceleration name deceleration = .ok d) :
    deceleration = some d ∧ Scalar.isFinite d = true ∧ Scalar.lt 0 d = true := by
  cases deceleration with
  | none => cases h
  | some e =>
      simp only [checkDeceleration] at h
      split at h
      · next hgood =>
          cases h
          exact ⟨rfl, Bool.and_eq_true_iff.mp hgood⟩
      · cases h

omit [Scalar α] in
theorem checkScope_eq_ok {p : Pool α} {scope : Scope} {action : Action α} {u : Unit}
    (h : checkScope p scope action = .ok u) :
    ∃ inner, action.scope p = .ok inner ∧ scope.encloses inner = true := by
  unfold checkScope at h
  split at h
  · cases h
  · next inner hinner =>
      split at h
      · next hencloses => exact ⟨inner, hinner, hencloses⟩
      · cases h

/-- A new command has a positive deceleration time and a scope that encloses
that of its action. -/
theorem new_eq_ok {p q : Pool α} {name : String} {scope : Scope} {action : Action α}
    {deceleration : Option α} {c : Command α}
    (h : new name scope action deceleration p = .ok c q) :
    ∃ d inner, Scalar.lt 0 d = true ∧ action.scope p = .ok inner ∧
      scope.encloses inner = true ∧
    ∃ cancelInput cancel scaleState scale parts p₁ p₂ p₃,
      input (name ++ ".cancel") .boolean scope p = .ok cancelInput p₁ ∧
      placeholder (name ++ ".cancel_requested") .boolean scope p₁ = .ok cancel p₂ ∧
      placeholder (name ++ ".scale") .double scope p₂ = .ok scaleState p₃ ∧
      buildScale d cancel scaleState p₃ = .ok (scale, parts) q ∧
      c = { name, scope, action, deceleration := d, cancelInput, cancel, scaleState, scale,
            effective := scale } := by
  rw [new_eq] at h
  obtain ⟨d, _, hd, h⟩ := bind_eq_ok.mp h
  obtain ⟨hcheck, rfl⟩ := ofExcept_eq_ok.mp hd
  obtain ⟨-, -, hpositive⟩ := checkDeceleration_eq_ok hcheck
  obtain ⟨_, _, hget, h⟩ := bind_eq_ok.mp h
  obtain ⟨rfl, rfl⟩ := get_eq_ok.mp hget
  obtain ⟨_, _, hscope, h⟩ := bind_eq_ok.mp h
  obtain ⟨hcheck, rfl⟩ := ofExcept_eq_ok.mp hscope
  obtain ⟨inner, hinner, hencloses⟩ := checkScope_eq_ok hcheck
  obtain ⟨cancelInput, p₁, h₁, h⟩ := bind_eq_ok.mp h
  obtain ⟨cancel, p₂, h₂, h⟩ := bind_eq_ok.mp h
  obtain ⟨scaleState, p₃, h₃, h⟩ := bind_eq_ok.mp h
  obtain ⟨⟨scale, parts⟩, p₄, h₄, h⟩ := bind_eq_ok.mp h
  obtain ⟨rfl, rfl⟩ := pure_eq_ok.mp h
  exact ⟨d, inner, hpositive, hinner, hencloses, cancelInput, cancel, scaleState, scale, parts,
    p₁, p₂, p₃, h₁, h₂, h₃, h₄, rfl⟩

/-- An override replaces the effective scale and nothing else. -/
theorem withOverride_eq_ok {p q : Pool α} {c c' : Command α} {speed : ExprId}
    (h : c.withOverride speed p = .ok c' q) :
    ∃ effective, binary .mul speed c.scale p = .ok effective q ∧ c' = { c with effective } := by
  obtain ⟨effective, p₁, h₁, h⟩ := bind_eq_ok.mp h
  obtain ⟨rfl, rfl⟩ := pure_eq_ok.mp h
  exact ⟨effective, h₁, rfl⟩

end Command

end SignalNet
