import SignalNet.Proofs.Compile.Channels
import SignalNet.Proofs.Motion.Verdicts
import SignalNet.Proofs.Net.Readiness

/-!
# Wrapped actions

A wrapper passes on the exceptions that it does not handle, and adds its own,
which it does not handle.  The rest it leaves to the action inside.

* An exception escapes from a tree of actions (`Action.Escapes`) if it is raised
  somewhere in it, and no wrapper around that place handles it.  The exceptions
  that are registered for a tree are those that escape
  (`Session.lowerAction_exceptions`).
* An action reports its progress by a port for being completed and by one that
  negates it (`Session.Reports`).  A wrapper reports that the action inside is
  completed, so all wrappers report what the innermost action does
  (`Session.lowerAction_reports`).
* `Session.wrapping_reexports` puts the two together.
-/

namespace SignalNet

open Computing Lowering

/-! ### Exceptions that escape -/

namespace Action

variable {α : Type}

/-- The action inside all wrappers. -/
def innermost : Action α → Action α
  | basic name motion raises => basic name motion raises
  | wrapped _ inner _ _ => inner.innermost

/-- The conditions in a tree of actions, each with the classes that are handled
around it. -/
def sites : Action α → List (RaiseSite × List ExceptionClass)
  | basic _ _ raises => raises.map fun site => (site, [])
  | wrapped _ inner handled raises =>
    (inner.sites.map fun (site, around) => (site, around ++ handled)) ++
      raises.map fun site => (site, [])

/-- A condition raises an exception of a class somewhere in a tree of actions
where no wrapper around it handles the class. -/
def Escapes (a : Action α) (c : ExceptionClass) (condition : ExprId) : Prop :=
  ∃ around, (⟨c, condition⟩, around) ∈ a.sites ∧ ∀ h ∈ around, c.isA h = false

variable {name : String} {inner : Action α} {handled : List ExceptionClass}
  {raises : List RaiseSite} {c : ExceptionClass} {condition : ExprId}

/-- Without a wrapper everything escapes. -/
theorem escapes_basic {motion : Motion α} :
    (basic name motion raises).Escapes c condition ↔ ⟨c, condition⟩ ∈ raises := by
  unfold Escapes sites
  constructor
  · rintro ⟨around, hsite, -⟩
    obtain ⟨site, hmem, hpair⟩ := List.mem_map.mp hsite
    cases hpair
    exact hmem
  · exact fun hmem => ⟨[], List.mem_map.mpr ⟨_, hmem, rfl⟩, by simp⟩

/-- From a wrapper escapes what escapes from inside and is not handled, and what
the wrapper raises itself. -/
theorem escapes_wrapped :
    (wrapped name inner handled raises).Escapes c condition ↔
      inner.Escapes c condition ∧ (∀ h ∈ handled, c.isA h = false) ∨
        ⟨c, condition⟩ ∈ raises := by
  unfold Escapes
  rw [sites]
  constructor
  · rintro ⟨around, hsite, hnone⟩
    rcases List.mem_append.mp hsite with hinside | hown
    · obtain ⟨⟨site, before⟩, hmem, hpair⟩ := List.mem_map.mp hinside
      cases hpair
      rw [List.forall_mem_append] at hnone
      exact Or.inl ⟨⟨before, hmem, hnone.1⟩, hnone.2⟩
    · obtain ⟨site, hmem, hpair⟩ := List.mem_map.mp hown
      cases hpair
      exact Or.inr hmem
  · rintro (⟨⟨before, hmem, hbefore⟩, hhandled⟩ | hown)
    · refine ⟨before ++ handled, List.mem_append_left _ ?_, ?_⟩
      · exact List.mem_map.mpr ⟨_, hmem, rfl⟩
      · exact List.forall_mem_append.mpr ⟨hbefore, hhandled⟩
    · exact ⟨[], List.mem_append_right _ (List.mem_map.mpr ⟨_, hown, rfl⟩), by simp⟩

end Action

/-! ### Registries -/

namespace Registry

theorem mem_register_iff {r : Registry} {signal : Signal} {q : PortId}
    {entry : Signal × PortId} :
    entry ∈ (r.register signal q).entries ↔ entry ∈ r.entries ∨ entry = (signal, q) := by
  constructor
  · unfold register
    split
    · exact Or.inl
    · intro hmem
      rwa [List.mem_append, List.mem_singleton] at hmem
  · rintro (hmem | rfl)
    · exact includes_register r signal q entry hmem
    · exact mem_register r signal q

theorem mem_registerAll {entries : List (Signal × PortId)} {r : Registry}
    {entry : Signal × PortId} :
    entry ∈ (registerAll entries r).entries ↔ entry ∈ r.entries ∨ entry ∈ entries := by
  induction entries generalizing r with
  | nil => simp [registerAll]
  | cons first rest ih =>
      show entry ∈ (registerAll rest (r.register first.1 first.2)).entries ↔ _
      rw [ih, mem_register_iff, List.mem_cons, or_assoc]

end Registry

namespace Session

variable {α : Type} [Scalar α] {program : Program α} {s s' : Session α}

/-! ### Exceptions of actions -/

/-- The signals that a wrapper passes on. -/
def passes (handled : List ExceptionClass) : Signal → Bool
  | .state (.milestone _) => true
  | .state _ => false
  | .exception c => !handled.any c.isA

theorem passedOn_eq (handled : List ExceptionClass) (inner : Registry) :
    passedOn handled inner =
      Registry.registerAll (inner.entries.filter fun entry => passes handled entry.1) {} := by
  unfold passedOn Registry.registerAll
  rw [List.foldl_filter]
  congr 1
  funext passed ⟨signal, q⟩
  cases signal with
  | state t => cases t <;> rfl
  | exception c =>
      by_cases hhandled : handled.any c.isA = true <;> simp [passes, hhandled]

/-- **A wrapper passes on** the exceptions that it does not handle. -/
theorem mem_passedOn {handled : List ExceptionClass} {inner : Registry} {c : ExceptionClass}
    {q : PortId} : (.exception c, q) ∈ (passedOn handled inner).entries ↔
      (.exception c, q) ∈ inner.entries ∧ ∀ h ∈ handled, c.isA h = false := by
  rw [passedOn_eq, Registry.mem_registerAll, List.mem_filter]
  simp [passes]

omit [Scalar α] in
/-- Being completed is no exception. -/
theorem registerCompleted_exceptions {completed : PortId} {signals result : Registry}
    (hrun : registerCompleted completed signals s = .ok result s') {c : ExceptionClass}
    {q : PortId} :
    (.exception c, q) ∈ result.entries ↔ (.exception c, q) ∈ signals.entries := by
  obtain ⟨active, s₁, -, hafter⟩ := bind_eq_ok.mp hrun
  obtain ⟨rfl, -⟩ := pure_eq_ok.mp hafter
  rw [Registry.mem_register_iff, Registry.mem_register_iff]
  simp

/-- **Raising** adds the port of each condition for the class that it raises. -/
theorem lowerRaises_exceptions {raises : List RaiseSite} {signals result : Registry}
    (hrun : lowerRaises program raises signals s = .ok result s') :
    (∀ site ∈ raises, ∃ q, s'.lowered.get? site.condition = some q) ∧
      ∀ {c : ExceptionClass} {q : PortId}, (.exception c, q) ∈ result.entries ↔
        (.exception c, q) ∈ signals.entries ∨
          ∃ condition, ⟨c, condition⟩ ∈ raises ∧ s'.lowered.get? condition = some q := by
  induction raises generalizing s signals with
  | nil =>
      obtain ⟨rfl, -⟩ := pure_eq_ok.mp hrun
      simp
  | cons site rest ih =>
      obtain ⟨port, s₁, hlower, hafter⟩ := bind_eq_ok.mp hrun
      obtain ⟨_, s₂, hexpect, hrest⟩ := bind_eq_ok.mp hafter
      obtain ⟨rfl, -⟩ := expectBoolean_eq_ok hexpect
      obtain ⟨hlowered, hresult⟩ := ih hrest
      have htraced : Traced program s₂ s' :=
        (closed_traced program []).lowerRaises _ _ _ _ _ hrest
      have hport : s'.lowered.get? site.condition = some port :=
        htraced.retains _ _ (lower_entered hlower)
      refine ⟨List.forall_mem_cons.mpr ⟨⟨port, hport⟩, hlowered⟩, ?_⟩
      intro c q
      rw [hresult, Registry.mem_register_iff, or_assoc]
      apply or_congr_right
      constructor
      · rintro (hpair | ⟨condition, hmem, hq⟩)
        · cases hpair
          exact ⟨site.condition, List.mem_cons_self, hport⟩
        · exact ⟨condition, List.mem_cons_of_mem _ hmem, hq⟩
      · rintro ⟨condition, hmem, hq⟩
        rcases List.mem_cons.mp hmem with hsite | hmem
        · subst hsite
          rw [hport] at hq
          cases hq
          exact Or.inl rfl
        · exact Or.inr ⟨condition, hmem, hq⟩

/-- **The exceptions of an action** are those that escape, each with the port of
its condition. -/
theorem lowerAction_exceptions {a : Action α} {ports : ActionPorts}
    (hrun : lowerAction program a s = .ok ports s') :
    (∀ site ∈ a.sites, ∃ q, s'.lowered.get? site.1.condition = some q) ∧
      ∀ {c : ExceptionClass} {q : PortId}, (.exception c, q) ∈ ports.signals.entries ↔
        ∃ condition, a.Escapes c condition ∧ s'.lowered.get? condition = some q := by
  induction a generalizing s s' ports with
  | basic name motion raises =>
      obtain ⟨outputs, completed, signals, result, s₁, s₂, -, hregister, hraises, rfl⟩ :=
        lowerAction_basic_eq_ok hrun
      obtain ⟨hlowered, hresult⟩ := lowerRaises_exceptions hraises
      refine ⟨?_, ?_⟩
      · rw [Action.sites, List.forall_mem_map]
        exact hlowered
      · intro c q
        show (.exception c, q) ∈ result.entries ↔ _
        rw [hresult, registerCompleted_exceptions hregister]
        simp [Action.escapes_basic]
  | wrapped name inner handled raises ih =>
      obtain ⟨inside, completed, signals, result, s₁, s₂, s₃, hinside, hany, hregister, hraises,
        rfl⟩ := lowerAction_wrapped_eq_ok hrun
      obtain ⟨hinner, hescaped⟩ := ih hinside
      obtain ⟨hlowered, hresult⟩ := lowerRaises_exceptions hraises
      have hclosed := closed_traced program []
      have htraced : Traced program s₁ s' :=
        (hclosed.anyOf _ _ _ _ hany).trans
          ((hclosed.registerCompleted _ _ _ _ _ hregister).trans
            (hclosed.lowerRaises _ _ _ _ _ hraises))
      refine ⟨?_, ?_⟩
      · rw [Action.sites, List.forall_mem_append, List.forall_mem_map, List.forall_mem_map]
        refine ⟨fun site hsite => ?_, hlowered⟩
        obtain ⟨q, hq⟩ := hinner site hsite
        exact ⟨q, htraced.retains _ _ hq⟩
      · intro c q
        -- The conditions inside have the ports that they had before the wrapper was lowered.
        have hsame : ∀ {condition : ExprId}, inner.Escapes c condition →
            (s₁.lowered.get? condition = some q ↔ s'.lowered.get? condition = some q) := by
          rintro condition ⟨around, hsite, -⟩
          obtain ⟨p, hp⟩ := hinner _ hsite
          rw [hp, htraced.retains _ _ hp]
        show (.exception c, q) ∈ result.entries ↔ _
        rw [hresult, registerCompleted_exceptions hregister, mem_passedOn, hescaped]
        simp only [Action.escapes_wrapped]
        constructor
        · rintro (⟨⟨condition, hescapes, hq⟩, hhandled⟩ | ⟨condition, hown, hq⟩)
          · exact ⟨condition, Or.inl ⟨hescapes, hhandled⟩, (hsame hescapes).mp hq⟩
          · exact ⟨condition, Or.inr hown, hq⟩
        · rintro ⟨condition, ⟨hescapes, hhandled⟩ | hown, hq⟩
          · exact Or.inl ⟨⟨condition, hescapes, (hsame hescapes).mpr hq⟩, hhandled⟩
          · exact Or.inr ⟨condition, hown, hq⟩

/-! ### Progress of actions -/

/-- A registry reports by one port that an action is completed, and by another
one, which negates it, that the action is active. -/
structure Reports (f : Fragment α) (signals : Registry) (done running : PortId) : Prop where
  completed : signals.statePorts .completed = [done]
  active : signals.statePorts .active = [running]
  negates : f.Makes running (.unary .not) [done] .boolean

omit [Scalar α] in
theorem Reports.extend {f g : Fragment α} {signals : Registry} {done running : PortId}
    (h : Reports f signals done running) (hg : f.Extends g) : Reports g signals done running :=
  ⟨h.completed, h.active, h.negates.extend hg⟩

omit [Scalar α] in
/-- An action reports its progress where nothing else does. -/
theorem registerCompleted_reports {done : PortId} {signals result : Registry}
    (hf : s.fragment.WellFormed) (hcompleted : signals.statePorts .completed = [])
    (hactive : signals.statePorts .active = [])
    (hrun : registerCompleted done signals s = .ok result s') :
    ∃ running, Reports s'.fragment result done running := by
  obtain ⟨running, s₁, hnegate, hafter⟩ := bind_eq_ok.mp hrun
  obtain ⟨f, kinds, hadded, rfl⟩ := add_added hf hnegate
  obtain ⟨rfl, rfl⟩ := pure_eq_ok.mp hafter
  refine ⟨running, ?_, ?_, hadded.makes⟩
  · rw [Registry.statePorts_register_of_ne (by simp),
      Registry.statePorts_register_first hcompleted]
  · refine Registry.statePorts_register_first ?_
    rw [Registry.statePorts_register_of_ne (by simp), hactive]

/-- The last steps of an action report its progress, and only add to the
fragment. -/
theorem Truthful.reports (hs : Truthful program (fun _ => False) s)
    (hp : program.pool.WellFormed) {done : PortId} {signals signals₁ result : Registry}
    {raises : List RaiseSite} {s₁ : Session α} (hcompleted : signals.statePorts .completed = [])
    (hactive : signals.statePorts .active = [])
    (hregister : registerCompleted done signals s = .ok signals₁ s₁)
    (hraises : lowerRaises program raises signals₁ s₁ = .ok result s') :
    (∃ running, Reports s'.fragment result done running) ∧ s.fragment.Extends s'.fragment := by
  have hclosed := closed_traced program []
  obtain ⟨hs₁, hextends₁⟩ := (hclosed.registerCompleted _ _ _ _ _ hregister).thrives hp hs
  obtain ⟨-, hextends⟩ := (hclosed.lowerRaises _ _ _ _ _ hraises).thrives hp hs₁
  obtain ⟨running, hreports⟩ :=
    registerCompleted_reports hs.wellFormed hcompleted hactive hregister
  refine ⟨⟨running, ?_, ?_, hreports.negates.extend hextends⟩, hextends₁.trans hextends⟩
  · rw [lowerRaises_statePorts hraises, hreports.completed]
  · rw [lowerRaises_statePorts hraises, hreports.active]

/-- Actions are lowered by calls. -/
theorem lowerAction_traced (a : Action α) : Leaves (Traced program) (lowerAction program a) :=
  (closed_traced program a.positions).lowerAction fun _ hid => hid

/-- **Wrappers leave the rest to the action inside**: they have its channels, and
report that it is completed. -/
theorem lowerAction_reports (hp : program.pool.WellFormed)
    (hs : Truthful program (fun _ => False) s) {a : Action α} {ports : ActionPorts}
    (hrun : lowerAction program a s = .ok ports s') :
    ∃ inside t done running running',
      lowerAction program a.innermost s = .ok inside t ∧ Traced program t s' ∧
      ports.outputs = inside.outputs ∧ Reports s'.fragment ports.signals done running ∧
      Reports s'.fragment inside.signals done running' := by
  induction a generalizing s' ports with
  | basic name motion raises =>
      obtain ⟨outputs, done, signals, result, s₁, s₂, hmotion, hregister, hraises, rfl⟩ :=
        lowerAction_basic_eq_ok hrun
      have htraced : Traced program s s₁ := by
        refine (closed_traced program (Action.basic name motion raises).positions).lowerMotion
          ?_ _ _ _ hmotion
        rintro channel position scale next distance rfl
        exact List.mem_singleton_self position
      obtain ⟨hs₁, -⟩ := htraced.thrives hp hs
      obtain ⟨⟨running, hreports⟩, -⟩ := hs₁.reports hp rfl rfl hregister hraises
      exact ⟨_, s', done, running, running, hrun, (closed_traced program []).refl s', rfl,
        hreports, hreports⟩
  | wrapped name inner handled raises ih =>
      obtain ⟨inside, done, signals, result, s₁, s₂, s₃, hinside, hany, hregister, hraises,
        rfl⟩ := lowerAction_wrapped_eq_ok hrun
      obtain ⟨hs₁, -⟩ := (lowerAction_traced inner _ _ _ hinside).thrives hp hs
      obtain ⟨innermost, t, done', running, running', hinnermost, htraced', houtputs, hinner,
        hinner'⟩ := ih hinside
      -- What is completed inside is completed.
      rw [hinner.completed] at hany
      obtain ⟨rfl, rfl⟩ := pure_eq_ok.mp hany
      have hnone : ∀ {state : State}, (∀ name, state ≠ .milestone name) →
          (passedOn handled inside.signals).statePorts state = [] :=
        fun hstate => statePorts_passedOn handled (Or.inr hstate)
      obtain ⟨⟨outer, houter⟩, hextends⟩ :=
        hs₁.reports hp (hnone (by simp)) (hnone (by simp)) hregister hraises
      have hclosed := closed_traced program []
      have hrest : Traced program s₁ s' :=
        (hclosed.registerCompleted _ _ _ _ _ hregister).trans
          (hclosed.lowerRaises _ _ _ _ _ hraises)
      exact ⟨innermost, t, _, outer, running', hinnermost, htraced'.trans hrest, houtputs, houter,
        hinner'.extend hextends⟩

/-- An action without ramps is lowered as it is. -/
theorem lowerTarget_action_eq_ok {a : Action α} (hramps : a.scalePlaceholders = [])
    {ports : ActionPorts} (hrun : lowerAction program a s = .ok ports s') :
    lowerTarget program (.action a) s = .ok (.inr ports) s' := by
  rw [lowerTarget, hramps]
  exact bind_of_ok hrun

open Simulator in
/-- A completed cycle finds an action either completed or active, whatever calls
come before it. -/
theorem Reports.step {f : Fragment α} (hf : f.WellFormed) {signals : Registry}
    {done running : PortId} (h : Reports f signals done running) {period : α}
    {calls : List (Simulator.Call α)} {s₀ r : Simulator α} (hstart : start f period = .ok s₀)
    (hstep : Simulator.step (Simulator.performAll calls s₀) = .ok () r) :
    ∃ b, r.boolean? done = some b ∧ r.boolean? running = some !b := by
  obtain ⟨rfl, hcycle⟩ := performAll_cycle hf hstart hstep
  exact hcycle.negates hf h.negates

/-- **Wrapping passes on the exceptions that nobody handles, and changes nothing
else.**  Lower any tree of actions in any session, by rules of any of the shapes
of `Rule`.

* All conditions in the tree have ports.  The exceptions that are registered
  for the tree are those that escape, with the ports of their conditions.  Its
  only states are that it is completed and that it is active.
* The innermost action is lowered first.  It has the same channels, and the same
  port for being completed.
* Let the session go on as it may, and its fragment be run with any calls, cycles
  that fail included.  After every completed cycle the action is either completed
  or active, and it is active exactly if the innermost action is. -/
theorem wrapping_reexports (hpool : program.pool.Reachable) (hs : Traced program .empty s)
    {a : Action α} {ports : ActionPorts} (hrun : lowerAction program a s = .ok ports s') :
    (∀ site ∈ a.sites, ∃ q, s'.lowered.get? site.1.condition = some q) ∧
    (∀ c q, (.exception c, q) ∈ ports.signals.entries ↔
      ∃ condition, a.Escapes c condition ∧ s'.lowered.get? condition = some q) ∧
    (∀ state, state ≠ .completed → state ≠ .active → ports.signals.statePorts state = []) ∧
    ∃ inside t done running running',
      lowerAction program a.innermost s = .ok inside t ∧ Traced program t s' ∧
      ports.outputs = inside.outputs ∧
      ports.signals.statePorts .completed = [done] ∧
      inside.signals.statePorts .completed = [done] ∧
      ports.signals.statePorts .active = [running] ∧
      inside.signals.statePorts .active = [running'] ∧
      ∀ (u : Session α) (period : α) (s₀ : Simulator α) (calls : List (Simulator.Call α))
        (r : Simulator α),
        Traced program s' u → Simulator.start u.fragment period = .ok s₀ →
        Simulator.step (Simulator.performAll calls s₀) = .ok () r →
        ∃ b, r.boolean? done = some b ∧ r.boolean? running = some (!b) ∧
          r.boolean? running' = some (!b) := by
  have hp := hpool.wellFormed
  obtain ⟨hlowered, hexceptions⟩ := lowerAction_exceptions hrun
  obtain ⟨htruthful, -⟩ := hs.thrives hp truthful_empty
  obtain ⟨inside, t, done, running, running', hinside, hrest, houtputs, hreports, hreports'⟩ :=
    lowerAction_reports hp htruthful hrun
  obtain ⟨htruthful', -⟩ := (lowerAction_traced a _ _ _ hrun).thrives hp htruthful
  refine ⟨hlowered, fun c q => hexceptions, fun state => lowerAction_statePorts hrun, inside, t,
    done, running, running', hinside, hrest, houtputs, hreports.completed, hreports'.completed,
    hreports.active, hreports'.active, ?_⟩
  intro u period s₀ calls r hu hstart hstep
  obtain ⟨hwell, hextends⟩ := hu.thrives hp htruthful'
  obtain ⟨b, hdone, hrunning⟩ :=
    (hreports.extend hextends).step hwell.wellFormed hstart hstep
  obtain ⟨b', hdone', hrunning'⟩ :=
    (hreports'.extend hextends).step hwell.wellFormed hstart hstep
  obtain rfl : b' = b := Option.some.inj (hdone'.symm.trans hdone)
  exact ⟨b', hdone, hrunning, hrunning'⟩

end Session

namespace Compiler

/-- A pause in two wrappers.  One of them handles overheating, and calls it
overheating that something is jammed. -/
def Sample.guarded : Action Float :=
  let overheated := (ExceptionClass.root "Fault").child "Overheated"
  let jammed := (ExceptionClass.root "Fault").child "Jammed"
  let rest := ((Action.wait "rest" 1).raising overheated 0).raising jammed 1
  Action.wrap "shift" (((Action.wrap "guard" rest).handling overheated).raising overheated 1)

def Sample.shift : Request Float :=
  { target := .action Sample.guarded }

/-- Both alarms go off, one after the other. -/
def Sample.alarming : List (Simulator.Call Float) :=
  [.setInput "hot" (.boolean true), .step, .setInput "jam" (.boolean true)]

open Simulator in
/-- The pause is compiled and runs for two cycles. -/
def Sample.guards (test : ActionPorts → Session Float → Simulator Float → Bool) : Bool :=
  match Session.lowerAction ⟨Sample.alarms, .standard, {}, .standard, .offline⟩ Sample.guarded
      .empty,
    compile ⟨.standard, .standard⟩ Sample.alarms .offline Sample.shift with
  | .ok ports s, .ok net => match start net.fragment 0.25 with
    | .error _ => false
    | .ok s₀ => match Simulator.step (Simulator.performAll Sample.alarming s₀) with
      | .error _ _ => false
      | .ok _ r => test ports s r
  | _, _ => false

open Simulator in
theorem Sample.guards_eq_true {test : ActionPorts → Session Float → Simulator Float → Bool}
    (h : Sample.guards test = true) : ∃ ports s net s₀ r,
      Session.lowerAction ⟨Sample.alarms, .standard, {}, .standard, .offline⟩ Sample.guarded
        .empty = .ok ports s ∧
      compile ⟨.standard, .standard⟩ Sample.alarms .offline Sample.shift = .ok net ∧
      start net.fragment 0.25 = .ok s₀ ∧
      Simulator.step (Simulator.performAll Sample.alarming s₀) = .ok () r ∧
      test ports s r = true := by
  unfold Sample.guards at h
  split at h
  · next ports s net haction hnet =>
    cases hstart : start net.fragment 0.25 with
    | error e => simp [hstart] at h
    | ok s₀ =>
        cases hstep : Simulator.step (Simulator.performAll Sample.alarming s₀) with
        | error e t => simp [hstart, hstep] at h
        | ok u r =>
            simp only [hstart, hstep] at h
            exact ⟨ports, s, net, s₀, r, haction, hnet, hstart, hstep, h⟩
  · cases h

open Simulator in
/-- Of overheating, what the wrapper raises escapes, and what it handles does
not.  The pause goes on. -/
theorem guarded_reexports : ∃ ports s net s₀ r hot jam done running,
    Session.lowerAction ⟨Sample.alarms, .standard, {}, .standard, .offline⟩ Sample.guarded
      .empty = .ok ports s ∧
    s.lowered.get? 0 = some hot ∧ s.lowered.get? 1 = some jam ∧
    let overheated := (ExceptionClass.root "Fault").child "Overheated"
    (.exception overheated, jam) ∈ ports.signals.entries ∧
    (.exception overheated, hot) ∉ ports.signals.entries ∧
    compile ⟨.standard, .standard⟩ Sample.alarms .offline Sample.shift = .ok net ∧
    start net.fragment 0.25 = .ok s₀ ∧
    Simulator.step (Simulator.performAll Sample.alarming s₀) = .ok () r ∧
    ports.signals.statePorts .completed = [done] ∧ r.boolean? done = some false ∧
    ports.signals.statePorts .active = [running] ∧ r.boolean? running = some true := by
  have hguards : Sample.guards (fun ports s r =>
      s.lowered.get? 0 == some 5 && s.lowered.get? 1 == some 6 &&
        ports.signals.statePorts .completed == [2] && r.boolean? 2 == some false) = true := by
    decide +kernel
  obtain ⟨ports, s, net, s₀, r, haction, hnet, hstart, hstep, htest⟩ :=
    Sample.guards_eq_true hguards
  simp only [Bool.and_eq_true, beq_iff_eq] at htest
  obtain ⟨⟨⟨hhot, hjam⟩, hcompleted⟩, hvalue⟩ := htest
  obtain ⟨-, hexceptions, -, _, _, done, running, _, -, -, -, hdone, -, hactive, -, hcycles⟩ :=
    Session.wrapping_reexports ⟨true, _, rfl⟩ ⟨[], rfl⟩ haction
  -- The network is what becomes of the session.
  obtain ⟨session, hsession⟩ := compile_eq_ok hnet
  have hlower : Session.lowerTarget ⟨Sample.alarms, .standard, {}, .standard, .offline⟩
      Sample.shift.target .empty = .ok (.inr ports) s :=
    Session.lowerTarget_action_eq_ok rfl haction
  obtain ⟨_, -, htraced₁, htraced, hfragment⟩ := Session.compile_traced hlower hsession
  obtain ⟨b, hb, hrunning, -⟩ := hcycles session 0.25 s₀ Sample.alarming r
    (htraced₁.trans htraced) (hfragment ▸ hstart) hstep
  obtain rfl : done = 2 := List.singleton_inj.mp (hdone.symm.trans hcompleted)
  obtain rfl : b = false := Option.some.inj (hb.symm.trans hvalue)
  refine ⟨ports, s, net, s₀, r, 5, 6, 2, running, haction, hhot, hjam, ?_, ?_, hnet, hstart, hstep,
    hdone, hvalue, hactive, hrunning⟩
  · exact (hexceptions _ _).mpr ⟨1, ⟨[], by decide +kernel, by simp⟩, hjam⟩
  · intro hmem
    have hsites : ∀ site ∈ Sample.guarded.sites, site.1.exception.name = "Overheated" →
        (∀ h ∈ site.2, site.1.exception.isA h = false) → site.1.condition = 1 := by
      decide +kernel
    obtain ⟨condition, ⟨around, hsite, hnone⟩, hport⟩ := (hexceptions _ _).mp hmem
    obtain rfl : condition = 1 := hsites _ hsite rfl hnone
    rw [hjam] at hport
    cases hport

end Compiler

end SignalNet
