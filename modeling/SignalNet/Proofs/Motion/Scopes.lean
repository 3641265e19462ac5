import SignalNet.Proofs.Motion.Ramp

/-!
# Scopes of actions and commands

A command may be made in any scope that encloses the scope of its action.  The
scope of a ramp is that of its next position, and the distance that decides
when the ramp is completed is not looked at.  It need not be: the way from the
next position back to the target is never folded away (`Pool.Approaches`), so
whatever encloses the next position encloses the target and the distance, too.

`Command.Built.enclosed` is the result: the scope of a command encloses all
that the command brings with it when it is made, which are the expressions of
its action, the input for cancellation and the scale.
-/

namespace SignalNet

open Computing

variable {α : Type} [Scalar α]

namespace Pool

/-- The node behind a form, for properties that are inherited. -/
theorem Holds.down {p : Pool α} {Q : ExprId → Prop} (hQ : p.Inherited Q) {id : ExprId}
    {form : Form α} (h : p.Holds id form) (hpure : form.isPure = true) (hid : Q id) :
    ∀ d ∈ form.dependencies, Q d := by
  obtain ⟨n, hn, hform⟩ := h
  intro d hd
  refine hQ.down hn ((Form.canonical_isPure hform).trans hpure) hid d ?_
  rwa [Node.dependencies, Form.canonical_dependencies hform]

theorem Holds.up {p : Pool α} {Q : ExprId → Prop} (hQ : p.Inherited Q) {id : ExprId}
    {form : Form α} (h : p.Holds id form) (hcomposite : form.isComposite = true)
    (hdeps : ∀ d ∈ form.dependencies, Q d) : Q id := by
  obtain ⟨n, hn, hform⟩ := h
  refine hQ.up hn ((Form.canonical_isComposite hform).trans hcomposite) ?_
  intro d hd
  rw [Node.dependencies, Form.canonical_dependencies hform] at hd
  exact hdeps d hd

/-- **What the next position inherits, the distance inherits.** -/
theorem Approaches.inherited {p : Pool α} {Q : ExprId → Prop} (hQ : p.Inherited Q)
    {next distance : ExprId} {parts : RampParts} (h : p.Approaches next distance parts)
    (hnext : Q next) : Q distance := by
  have hdelta : Q parts.delta :=
    h.next.down hQ rfl hnext parts.delta (by simp [Form.dependencies])
  have hleft : Q parts.left := h.delta.down hQ rfl hdelta parts.left (by simp [Form.dependencies])
  have htarget : Q parts.target :=
    h.left.down hQ rfl hleft parts.target (by simp [Form.dependencies])
  have hremaining : Q parts.remaining := by
    refine h.remaining.up hQ rfl ?_
    intro d hd
    rcases List.mem_pair.mp hd with rfl | rfl
    · exact htarget
    · exact hnext
  refine h.distance.up hQ rfl ?_
  intro d hd
  exact List.mem_singleton.mp hd ▸ hremaining

theorem Holds.literal {p : Pool α} {Q : ExprId → Prop} (hQ : p.Inherited Q) {id : ExprId}
    {v : Value α} (h : p.Holds id (.constant v)) : Q id := by
  obtain ⟨n, hn, hform⟩ := h
  cases hn' : n.form with
  | constant w => exact hQ.literal hn hn'
  | _ => simp [hn', Form.canonical] at hform

/-- **What the clock and the two delays have, the scale inherits.** -/
theorem HoldsScale.inherited {p : Pool α} {Q : ExprId → Prop} (hQ : p.Inherited Q)
    {deceleration : α} {cancel scaleState scale : ExprId} {parts : ScaleParts}
    (h : p.HoldsScale deceleration cancel scaleState scale parts) (hperiod : Q parts.period)
    (hprevious : Q parts.previous) (hrequested : Q parts.requested) : Q scale := by
  have hstopped := h.stopped.literal hQ
  have hrate : Q parts.rate := by
    rcases h.rate with hdiv | ⟨heq, -⟩
    · refine hdiv.up hQ rfl ?_
      simp [Form.dependencies, hperiod, h.seconds.literal hQ]
    · exact heq ▸ hperiod
  have hstep : Q parts.step := by
    refine h.step.up hQ rfl ?_
    simp [Form.dependencies, hrequested, hrate, hstopped]
  have hchange : Q parts.change := by
    refine h.change.up hQ rfl ?_
    simp [Form.dependencies, hprevious, hstep]
  refine h.scale.up hQ rfl ?_
  simp [Form.dependencies, hchange, hstopped, h.full.literal hQ]

end Pool

/-! ### Actions -/

/-- A ramp looks at one target. -/
def Motion.Approaching (p : Pool α) : Motion α → Prop
  | .ramp _ _ _ next distance => ∃ parts, p.Approaches next distance parts
  | _ => True

namespace Action

open Pool

/-- Folding leaves the way of a ramp alone, whatever its ends are. -/
theorem ramp_approaching {p q : Pool α} (hp : p.WellFormed) {name channel : String}
    {start target : ExprId} {maxRate : α} {a : Action α}
    (h : ramp name channel start target maxRate p = .ok a q) : a.motion.Approaching q := by
  obtain ⟨-, position, scale, next, distance, parts, origin, stride, rfl, -, hholds⟩ :=
    ramp_holds hp h
  exact ⟨parts, hholds.toApproaches⟩

theorem track_approaching {p q : Pool α} {name channel : String} {setpoint feedback : ExprId}
    {tolerance settle : α} {a : Action α}
    (h : track name channel setpoint feedback tolerance settle p = .ok a q) :
    a.motion.Approaching q := by
  obtain ⟨_, _, _, _, _, _, _, -, -, -, -, rfl⟩ := track_eq_ok h
  trivial

theorem Built.approaching {p : Pool α} {a : Action α} (h : a.Built p) :
    a.motion.Approaching p := by
  induction h with
  | track _ h => exact track_approaching h
  | ramp hp h => exact ramp_approaching hp.wellFormed h
  | wait name duration => trivial
  | wrap _ name ih => exact ih
  | handling _ c ih => rwa [motion_handling]
  | raising _ c condition ih => rwa [motion_raising]
  | @later p q a _ hp hq ih =>
      cases hmotion : a.motion with
      | ramp channel position scale next distance =>
          rw [hmotion] at ih
          obtain ⟨parts, hparts⟩ := ih
          exact ⟨parts, hparts.extend (hp.extends_of_follows hq)⟩
      | _ => trivial

/-- **A scope that encloses the scope of an action encloses all its
expressions.** -/
theorem Built.enclosed {p : Pool α} (hp : p.WellFormed) {a : Action α} (h : a.Built p)
    {scope inner : Scope} (hscope : a.scope p = .ok inner)
    (hencloses : scope.encloses inner = true) : ∀ id ∈ a.expressions, p.Enclosed scope id := by
  -- What the scope of the action was joined from is enclosed.
  have hjoined : (∀ id ∈ a.motion.scopeIds, p.Enclosed scope id) ∧
      ∀ id ∈ a.conditions, p.Enclosed scope id := by
    clear h
    induction a generalizing inner with
    | basic name motion raises =>
        have hall := ((enclosed_joinScopes hscope).mp hencloses).2
        exact ⟨fun id hid => hall id (List.mem_append_left _ hid),
          fun id hid => hall id (List.mem_append_right _ hid)⟩
    | wrapped name a handled raises ih =>
        rw [Action.scope] at hscope
        cases hinside : a.scope p with
        | error e => simp [hinside] at hscope
        | ok first =>
            simp only [hinside] at hscope
            obtain ⟨hfirst, hraises⟩ := (enclosed_joinScopes hscope).mp hencloses
            obtain ⟨hmotion, hconditions⟩ := ih hinside hfirst
            refine ⟨hmotion, fun id hid => ?_⟩
            rcases List.mem_append.mp hid with hid | hid
            · exact hconditions id hid
            · exact hraises id hid
  obtain ⟨hmotion, hconditions⟩ := hjoined
  have happroaching := h.approaching
  intro id hid
  rcases List.mem_append.mp hid with hid | hid
  · cases hform : a.motion with
    | track channel setpoint within settle =>
        rw [hform] at hid hmotion
        exact hmotion id hid
    | ramp channel position scale next distance =>
        rw [hform] at hid hmotion happroaching
        obtain ⟨parts, hparts⟩ := happroaching
        have hnext : p.Enclosed scope next := hmotion next (List.mem_singleton.mpr rfl)
        rcases List.mem_pair.mp hid with rfl | rfl
        · exact hnext
        · exact hparts.inherited (inherited_enclosed hp scope) hnext
    | wait duration =>
        rw [hform] at hid
        cases hid
  · exact hconditions id hid

end Action

/-! ### Commands -/

namespace Command

open Pool

/-- The scope of a new node. -/
theorem intern_enclosed {p q : Pool α} (hp : p.WellFormed) {n : Node α} {id : ExprId}
    {scope : Scope} (hn : scope.encloses n.scope = true) (h : intern n p = .ok id q) : q.Enclosed scope id := by
  obtain ⟨m, hm, hcanonical⟩ := intern_eq_ok hp h
  refine ⟨m.scope, scopeOf_eq_ok.mpr ⟨m, hm, rfl⟩, ?_⟩
  rwa [(canonical_eq_parts hcanonical).2.2.1]

theorem placeholder_enclosed {p q : Pool α} (hp : p.WellFormed) {label : String} {kind : Kind}
    {scope : Scope} {id : ExprId} (h : placeholder label kind scope p = .ok id q) :
    q.Enclosed scope id := by
  obtain ⟨_, _, hget, h⟩ := bind_eq_ok.mp h
  obtain ⟨rfl, rfl⟩ := get_eq_ok.mp hget
  obtain ⟨_, p₁, hset, h⟩ := bind_eq_ok.mp h
  obtain rfl := set_eq_ok.mp hset
  exact intern_enclosed (grows_count p hp).1 (n := ⟨_, _, scope, _⟩) scope.encloses_self h

/-- The scale of a command may be used where its two placeholders may be. -/
theorem buildScale_enclosed {p q : Pool α} (hp : p.WellFormed) {deceleration : α}
    {cancel scaleState scale : ExprId} {parts : ScaleParts} {scope : Scope}
    (h : buildScale deceleration cancel scaleState p = .ok (scale, parts) q)
    (hcancel : p.Enclosed scope cancel) (hstate : p.Enclosed scope scaleState) :
    q.Enclosed scope scale := by
  obtain ⟨hextends, hscale⟩ := buildScale_holds hp h
  obtain ⟨hq, -⟩ := (buildScale_composed _ _ _).sound.grown hp h
  have hQ := inherited_enclosed hq scope
  have hperiod : q.Enclosed scope parts.period := by
    obtain ⟨n, hn, hform⟩ := hscale.period
    have hclock : n.form = .clock .period := by
      cases hn' : n.form <;> simp_all [Form.canonical]
    have hleaf := (hq.admitted hn).leaf (by rw [hclock]; rfl)
    simp only [Node.OfLeaf, hclock] at hleaf
    exact ⟨.global, scopeOf_eq_ok.mpr ⟨n, hn, hleaf.2⟩, scope.encloses_global⟩
  have hrequested : q.Enclosed scope parts.requested := by
    refine hscale.requested.up hQ rfl ?_
    exact fun d hd => List.mem_singleton.mp hd ▸ hcancel.extend hextends
  have hprevious : q.Enclosed scope parts.previous := by
    refine hscale.previous.up hQ rfl ?_
    exact fun d hd => List.mem_singleton.mp hd ▸ hstate.extend hextends
  exact hscale.inherited hQ hperiod hprevious hrequested

/-- What a command brings with it when it is made. -/
def own (c : Command α) : List ExprId :=
  c.action.expressions ++ [c.cancelInput, c.scale]

theorem new_enclosed {p q : Pool α} (hp : p.Reachable) {name : String} {scope : Scope}
    {action : Action α} (haction : action.Built p) {deceleration : Option α} {c : Command α}
    (h : new name scope action deceleration p = .ok c q) :
    ∀ id ∈ c.own, q.Enclosed c.scope id := by
  obtain ⟨d, inner, -, hinner, hencloses, cancelInput, cancel, scaleState, scale, parts, p₁, p₂, p₃,
    h₁, h₂, h₃, h₄, rfl⟩ := new_eq_ok h
  have hp₁ := input_yields hp.wellFormed h₁
  have hp₂ := placeholder_yields hp₁.wellFormed h₂
  have hp₃ := placeholder_yields hp₂.wellFormed h₃
  obtain ⟨hq, -⟩ := buildScale_holds hp₃.wellFormed h₄
  have h₁' : p₁.Extends q := hp₂.extends.trans (hp₃.extends.trans hq)
  intro id hid
  rcases List.mem_append.mp hid with hid | hid
  · exact (haction.enclosed hp.wellFormed hinner hencloses id hid).extend
      (hp₁.extends.trans h₁')
  · rcases List.mem_pair.mp hid with rfl | rfl
    · exact (intern_enclosed hp.wellFormed (n := ⟨_, _, scope, _⟩) scope.encloses_self h₁).extend h₁'
    · exact buildScale_enclosed hp₃.wellFormed h₄
        ((placeholder_enclosed hp₁.wellFormed h₂).extend hp₃.extends) (placeholder_enclosed hp₂.wellFormed h₃)

/-- **The scope of a command encloses what the command was made with.** -/
theorem Built.enclosed {p : Pool α} {c : Command α} (h : c.Built p) :
    ∀ id ∈ c.own, p.Enclosed c.scope id := by
  induction h with
  | new hp haction h => exact new_enclosed hp haction h
  | withOverride hp _ h ih =>
      obtain ⟨effective, heffective, rfl⟩ := withOverride_eq_ok h
      obtain ⟨_, -, hq⟩ := build_yields hp.wellFormed heffective
      exact fun id hid => (ih id hid).extend hq.extends
  | on _ trigger reaction ih => exact ih
  | persisting _ handle ih => exact ih
  | later _ hp hq ih =>
      exact fun id hid => (ih id hid).extend (hp.extends_of_follows hq)

end Command

end SignalNet
