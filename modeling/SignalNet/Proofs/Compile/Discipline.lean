import SignalNet.Compile.Compiler
import SignalNet.Proofs.Compile.Lowering

/-!
# Disciplines of sessions

A discipline (`Discipline`) is an invariant of sessions together with the ports
that blocks may be fed from, the expressions that may be lowered, the sources
that may be collected, and the errors that may occur.  If single steps obey it
(`Discipline.Lawful`), lowering actions, commands and requests does, provided
that they ask for nothing but expressions and sources that are permitted.

* `Discipline.Safe` is what obeying means for one computation, and
  `Discipline.Lawful.bind` composes it.
* `Discipline.Lawful.lowerAction` and `Discipline.Lawful.lowerCommand` follow
  the two recursions, and `Discipline.Lawful.prepare` goes up to the point
  where a session ends.
-/

namespace SignalNet

variable {α : Type}

/-! ### The expressions that are lowered -/

/-- The errors about loops: a placeholder without a source or with two of them,
an input without a producer, and a cycle. -/
def CompileError.aboutLoops : CompileError α → Bool
  | .unresolvedPlaceholder _ | .resolvedTwice _ => true
  | .net e => decide (e.topic = .topology)
  | _ => false

mutual

/-- The conditions in a state expression. -/
def StateExpr.conditions : StateExpr α → List ExprId
  | .condition id => [id]
  | .of _ | .exception _ => []
  | .and members | .or members => conditionsAmong members
  | .not inner | .long inner _ | .scoped _ inner | .named _ inner => inner.conditions
  | .explicit activate deactivate => activate.conditions ++ conditionsIfAny deactivate

/-- The conditions in a list of state expressions. -/
def StateExpr.conditionsAmong : List (StateExpr α) → List ExprId
  | [] => []
  | member :: rest => member.conditions ++ conditionsAmong rest

/-- The conditions in a state expression that may be missing. -/
def StateExpr.conditionsIfAny : Option (StateExpr α) → List ExprId
  | none => []
  | some e => e.conditions

end

/-- The expressions that a motion puts out or is completed by. -/
def Motion.expressions : Motion α → List ExprId
  | .track _ setpoint within _ => [setpoint, within]
  | .ramp _ _ _ next distance => [next, distance]
  | .wait _ => []

/-- The motion inside an action. -/
def Action.motion : Action α → Motion α
  | .basic _ motion _ => motion
  | .wrapped _ inner _ _ => inner.motion

/-- The conditions under which an action, or an action inside it, raises
exceptions. -/
def Action.conditions : Action α → List ExprId
  | .basic _ _ raises => raises.map (·.condition)
  | .wrapped _ inner _ raises => inner.conditions ++ raises.map (·.condition)

/-- The expressions that lowering an action asks for. -/
def Action.expressions (a : Action α) : List ExprId :=
  a.motion.expressions ++ a.conditions

/-- The conditions that trigger handlers. -/
def Command.conditions (c : Command α) : List ExprId :=
  c.handlers.flatMap fun handler => handler.trigger.conditions

/-- The expressions whose values a command keeps. -/
def Command.kept (p : Pool α) (c : Command α) : List ExprId :=
  c.persists.filterMap fun handle => p.persists[handle]?.map (·.source)

/-- The expressions that lowering a command asks for. -/
def Command.expressions (p : Pool α) (c : Command α) : List ExprId :=
  c.action.expressions ++ [c.cancelInput, c.scale, c.effective] ++ c.conditions ++ c.kept p

def Target.expressions (p : Pool α) : Target α → List ExprId
  | .expr id => [id]
  | .action a => a.expressions
  | .command c => c.expressions p

/-- The expressions that a request asks for. -/
def Request.expressions (p : Pool α) (request : Request α) : List ExprId :=
  request.target.expressions p ++ request.observed

/-! ### Ports of signals -/

/-- All ports of a registry have a property. -/
def Registry.Every (P : PortId → Prop) (r : Registry) : Prop :=
  ∀ signal q, (signal, q) ∈ r.entries → P q

namespace Registry

variable {P : PortId → Prop} {r : Registry}

theorem every_empty : Every P {} := by
  intro signal q hq
  cases hq

theorem Every.mono {P' : PortId → Prop} (h : r.Every P) (hP : ∀ q, P q → P' q) : r.Every P' :=
  fun signal q hq => hP q (h signal q hq)

theorem Every.register (h : r.Every P) {q : PortId} (hq : P q) (signal : Signal) :
    (r.register signal q).Every P := by
  intro other port hport
  unfold Registry.register at hport
  split at hport
  · exact h other port hport
  · rcases List.mem_append.mp hport with hold | hnew
    · exact h other port hold
    · cases List.mem_singleton.mp hnew
      exact hq

theorem Every.statePorts (h : r.Every P) (state : State) : ∀ q ∈ r.statePorts state, P q := by
  intro q hq
  obtain ⟨⟨signal, port⟩, hmem, hport⟩ := List.mem_filterMap.mp hq
  cases signal with
  | state other =>
      dsimp only at hport
      split at hport
      · cases hport
        exact h _ _ hmem
      · cases hport
  | exception c => cases hport

theorem Every.exceptionPorts (h : r.Every P) (c : ExceptionClass) :
    ∀ q ∈ r.exceptionPorts c, P q := by
  intro q hq
  obtain ⟨⟨signal, port⟩, hmem, hport⟩ := List.mem_filterMap.mp hq
  cases signal with
  | state other => cases hport
  | exception other =>
      dsimp only at hport
      split at hport
      · cases hport
        exact h _ _ hmem
      · cases hport

/-- A wrapper passes on some of the ports. -/
theorem Every.passedOn (h : r.Every P) (handled : List ExceptionClass) :
    (Session.passedOn handled r).Every P := by
  unfold Session.passedOn
  refine List.foldlRecOn r.entries _ every_empty fun passed hpassed entry hentry => ?_
  obtain ⟨signal, q⟩ := entry
  have hq : P q := h signal q hentry
  dsimp only
  split
  · exact hpassed.register hq _
  · exact hpassed
  · split
    · exact hpassed
    · exact hpassed.register hq _

end Registry

/-- All ports for signals of an action, and of the actions inside it, have a
property. -/
inductive ActionPorts.Every (P : PortId → Prop) : ActionPorts → Prop
  | mk {name : String} {outputs : Table String PortId} {signals : Registry}
      {inner : List ActionPorts} (hsignals : signals.Every P)
      (hinner : ∀ ports ∈ inner, Every P ports) : Every P (.mk name outputs signals inner)

namespace ActionPorts

variable {P : PortId → Prop}

theorem Every.signals {ports : ActionPorts} (h : ports.Every P) : ports.signals.Every P := by
  cases h with
  | mk hsignals _ => exact hsignals

theorem Every.mono {P' : PortId → Prop} {ports : ActionPorts} (h : ports.Every P)
    (hP : ∀ q, P q → P' q) : ports.Every P' := by
  induction h with
  | mk hsignals _ ih => exact .mk (hsignals.mono hP) ih

/-- An action inside an action has such ports, too. -/
theorem Every.find? {name : String} {ports found : ActionPorts} (h : ports.Every P)
    (hfind : ports.find? name = some found) : found.Every P := by
  have hinside : GoesInside (Every P) := by
    rintro _ _ _ _ ⟨-, hinner⟩
    exact hinner
  exact hinside.find? name ports h hfind

end ActionPorts

/-! ### Disciplines -/

/-- What a session is held to. -/
structure Discipline (α : Type) where
  /-- Holds between any two steps. -/
  Holds : Session α → Prop
  /-- How steps change a session. -/
  Grows : Session α → Session α → Prop
  /-- The ports that blocks may be fed from. -/
  Port : Session α → PortId → Prop
  /-- The expressions that may be lowered. -/
  Root : ExprId → Prop
  /-- The sources for placeholders that may be collected. -/
  Source : Session α → Resolver α → Prop
  /-- The errors that may occur. -/
  Error : CompileError α → Prop

namespace Discipline

open Computing Lowering

variable {D : Discipline α} {β γ : Type} {s : Session α}

/-- A computation obeys a discipline: it leads to a session that does, with a
result as described, or fails with an error that may occur. -/
def Safe (D : Discipline α) (x : Lowering α β) (s : Session α)
    (post : β → Session α → Prop) : Prop :=
  D.Holds s →
    (∀ b s', x s = .ok b s' → D.Holds s' ∧ D.Grows s s' ∧ post b s') ∧
      ∀ e s', x s = .error e s' → D.Error e

/-- The single steps of a session obey a discipline. -/
structure Lawful [Scalar α] (D : Discipline α) (program : Program α) : Prop where
  refl : ∀ s, D.Grows s s
  trans : ∀ {s₁ s₂ s₃}, D.Grows s₁ s₂ → D.Grows s₂ s₃ → D.Grows s₁ s₃
  mono : ∀ {s s' q}, D.Grows s s' → D.Port s q → D.Port s' q
  error : ∀ {e}, e.aboutLoops = false → D.Error e
  signals : ∀ {s}, D.Holds s → s.fragment.signals.Every (D.Port s)
  add : ∀ {s inputs} (primitive : Primitive α) (kind : Kind), (∀ q ∈ inputs, D.Port s q) →
    D.Safe (Session.add primitive inputs kind) s fun q s' => D.Port s' q
  constPort : ∀ {s} (v : Value α), D.Safe (Session.constPort v) s fun q s' => D.Port s' q
  lower : ∀ {s id}, D.Root id → D.Safe (Session.lower program id) s fun q s' => D.Port s' q
  addResolver : ∀ {s r}, D.Source s r → D.Safe (Session.addResolver r) s fun _ _ => True
  register : ∀ {s q} (signal : Signal), D.Port s q →
    D.Safe (Session.register signal q) s fun _ _ => True
  expose : ∀ {s} (name : String) (q : PortId),
    D.Safe (wire (Fragment.expose name q)) s fun _ _ => True
  storePersisted : ∀ {s handle}, (∀ source, program.pool.persistSource handle = .ok source →
    D.Root source) → D.Safe (Session.storePersisted program handle) s fun _ _ => True

/-- The source that lowering an action collects may be collected. -/
def ActionSources (D : Discipline α) (a : Action α) : Prop :=
  ∀ {channel position scale next distance},
    a.motion = .ramp channel position scale next distance →
    ∀ {s}, D.Source s ⟨[position], .expression next⟩

/-- The sources that lowering a command collects may be collected. -/
structure CommandSources (D : Discipline α) (c : Command α) : Prop where
  action : ActionSources D c.action
  scale : ∀ {s}, D.Source s ⟨[c.scaleState], .expression c.scale⟩
  ramps : ∀ {s}, D.Source s ⟨c.action.scalePlaceholders, .expression c.effective⟩
  cancel : ∀ {s q}, D.Port s q → D.Source s ⟨[c.cancel], .port q⟩

/-- The sources that a request collects may be collected. -/
def RequestSources [Scalar α] (D : Discipline α) : Target α → Prop
  | .expr _ => True
  | .action a => ActionSources D a ∧ ∀ {s}, D.Source s ⟨a.scalePlaceholders, .constant (.double 1)⟩
  | .command c => CommandSources D c

variable [Scalar α] {program : Program α}

namespace Lawful

theorem pure (h : D.Lawful program) {b : β} {post : β → Session α → Prop} (hb : post b s) :
    D.Safe (Pure.pure b) s post := by
  intro hs
  refine ⟨?_, ?_⟩
  · intro c s' hrun
    obtain ⟨rfl, rfl⟩ := pure_eq_ok.mp hrun
    exact ⟨hs, h.refl _, hb⟩
  · intro e s' hrun
    cases hrun

theorem throw (h : D.Lawful program) {e : CompileError α} (he : e.aboutLoops = false)
    {post : β → Session α → Prop} : D.Safe (throw e) s post := by
  intro hs
  refine ⟨fun b s' hrun => absurd hrun throw_ne_ok, ?_⟩
  intro e' s' hrun
  cases hrun
  exact h.error he

/-- **Composition.**  What follows starts in a session that obeys, too. -/
theorem bind (h : D.Lawful program) {x : Lowering α β} {f : β → Lowering α γ}
    {first : β → Session α → Prop} {post : γ → Session α → Prop} (hx : D.Safe x s first)
    (hf : ∀ b s', D.Holds s' → D.Grows s s' → first b s' → D.Safe (f b) s' post) :
    D.Safe (x >>= f) s post := by
  intro hs
  obtain ⟨hok, herror⟩ := hx hs
  refine ⟨?_, ?_⟩
  · intro c s' hrun
    obtain ⟨b, t, hfirst, hrest⟩ := bind_eq_ok.mp hrun
    obtain ⟨ht, hgrows, hb⟩ := hok b t hfirst
    obtain ⟨hs', hgrows', hc⟩ := (hf b t ht hgrows hb ht).1 c s' hrest
    exact ⟨hs', h.trans hgrows hgrows', hc⟩
  · intro e s' hrun
    cases hfirst : x s with
    | ok b t =>
        obtain ⟨ht, hgrows, hb⟩ := hok b t hfirst
        rw [bind_of_ok hfirst] at hrun
        exact (hf b t ht hgrows hb ht).2 e s' hrun
    | error e' t =>
        rw [bind_of_error hfirst] at hrun
        cases hrun
        exact herror _ _ hfirst

theorem map (h : D.Lawful program) {x : Lowering α β} {g : β → γ} {first : β → Session α → Prop}
    {post : γ → Session α → Prop} (hx : D.Safe x s first)
    (hpost : ∀ b s', first b s' → post (g b) s') : D.Safe (g <$> x) s post := by
  rw [map_eq_pure_bind]
  exact h.bind hx fun b s' _ _ hb => h.pure (hpost b s' hb)

/-- A step that is made under a condition. -/
theorem when (h : D.Lawful program) {p : Prop} [Decidable p] {x : Lowering α Unit}
    {f : Unit → Lowering α γ} {post : γ → Session α → Prop} (hx : D.Safe x s fun _ _ => True)
    (hf : ∀ t, D.Holds t → D.Grows s t → D.Safe (f ()) t post) :
    D.Safe (if p then x >>= f else f ()) s post := by
  split
  · exact h.bind hx fun _ t ht hgrows _ => hf t ht hgrows
  · exact fun hs => hf s hs (h.refl s) hs

/-- A query on the fragment. -/
theorem ofNet (h : D.Lawful program) {x : Except NetError β}
    (hx : ∀ e, x = .error e → e.topic ≠ .topology) :
    D.Safe (Lowering.ofNet x : Lowering α β) s fun _ _ => True := by
  cases x with
  | ok b => exact h.pure trivial
  | error e => exact h.throw (by simpa [CompileError.aboutLoops] using hx e rfl)

omit [Scalar α] in
/-- Looking up the kind of a port fails only if the port is not there. -/
theorem kindOf_error {f : Fragment α} {q : PortId} {e : NetError} (h : f.kindOf q = .error e) :
    e.topic ≠ .topology := by
  unfold Fragment.kindOf Fragment.port at h
  split at h
  · cases h
  · cases h
    simp [NetError.topic]

theorem expectBoolean (h : D.Lawful program) (q : PortId) (what : String) :
    D.Safe (Session.expectBoolean q what : Lowering α Unit) s fun _ _ => True := by
  have hget : D.Safe (get : Lowering α (Session α)) s fun t s' => t = s' := by
    intro hs
    refine ⟨?_, fun e s' hrun => by cases hrun⟩
    intro t s' hrun
    obtain ⟨rfl, rfl⟩ := get_eq_ok.mp hrun
    exact ⟨hs, h.refl _, rfl⟩
  unfold Session.expectBoolean
  refine h.bind hget fun t _ _ _ _ => ?_
  refine h.bind (h.ofNet fun e he => kindOf_error he) fun kind _ _ _ _ => ?_
  split
  · exact h.pure trivial
  · exact h.throw rfl

/-! ### Disjunctions and conjunctions -/

theorem anyOf (h : D.Lawful program) {ports : List PortId} (hports : ∀ q ∈ ports, D.Port s q) :
    D.Safe (Session.anyOf ports) s fun q s' => D.Port s' q := by
  match ports, hports with
  | [], _ => exact h.constPort _
  | [port], hports => exact h.pure (hports port List.mem_cons_self)
  | _ :: _ :: _, hports => exact h.add _ _ hports

theorem allOf (h : D.Lawful program) {ports : List PortId} (hports : ∀ q ∈ ports, D.Port s q) :
    D.Safe (Session.allOf ports) s fun q s' => D.Port s' q := by
  match ports, hports with
  | [], _ => exact h.constPort _
  | [port], hports => exact h.pure (hports port List.mem_cons_self)
  | _ :: _ :: _, hports => exact h.add _ _ hports

/-- What a state expression is lowered to, if it is anything, is a port that
may be used. -/
abbrev Maybe (D : Discipline α) (found : Option PortId) (s : Session α) : Prop :=
  ∀ q ∈ found, D.Port s q

omit [Scalar α] in
theorem maybe_some {q : PortId} (hq : D.Port s q) : Maybe D (some q) s := by
  intro r hr
  cases hr
  exact hq

omit [Scalar α] in
theorem maybe_none : Maybe D none s := by
  intro q hq
  cases hq

theorem anyOf? (h : D.Lawful program) {ports : List PortId} (hports : ∀ q ∈ ports, D.Port s q) :
    D.Safe (Session.anyOf? ports) s (Maybe D) := by
  cases ports with
  | nil => exact h.pure maybe_none
  | cons port rest => exact h.map (h.anyOf hports) fun _ _ => maybe_some

theorem resetPort (h : D.Lawful program) {off : Option PortId} (hoff : Maybe D off s) :
    D.Safe (Session.resetPort off) s fun q s' => D.Port s' q := by
  cases off with
  | none => exact h.constPort _
  | some port => exact h.pure (hoff port rfl)

theorem lowerLatch (h : D.Lawful program) {set : PortId} (hset : D.Port s set)
    {off : Option PortId} (hoff : Maybe D off s) :
    D.Safe (Session.lowerLatch set off) s (Maybe D) := by
  refine h.bind (h.resetPort hoff) fun reset s₁ _ hgrows hreset => ?_
  refine h.map (h.add _ _ ?_) fun _ _ => maybe_some
  intro q hq
  rcases List.mem_pair.mp hq with rfl | rfl
  · exact h.mono hgrows hset
  · exact hreset

/-! ### State expressions -/

mutual

theorem lowerState (h : D.Lawful program) : ∀ (e : StateExpr α) {action : ActionPorts}
    {s : Session α}, (∀ id ∈ e.conditions, D.Root id) → action.Every (D.Port s) →
    D.Safe (Session.lowerState program action e) s (Maybe D)
  | .condition id, action, s, hroots, _ => by
      rw [Session.lowerState]
      split
      · exact h.pure maybe_none
      · refine h.bind (h.lower (hroots id (by simp [StateExpr.conditions]))) ?_
        intro port s₁ _ _ hport
        refine h.bind (h.expectBoolean port _) fun _ s₂ _ hgrows _ => ?_
        exact h.pure (maybe_some (h.mono hgrows hport))
  | .of state, action, s, _, haction => by
      rw [Session.lowerState]
      exact h.anyOf? (haction.signals.statePorts state)
  | .exception c, action, s, _, haction => by
      rw [Session.lowerState]
      exact h.anyOf? (haction.signals.exceptionPorts c)
  | .and members, action, s, hroots, haction => by
      rw [Session.lowerState]
      refine h.bind (lowerAllStates h members (by simpa [StateExpr.conditions] using hroots)
        haction) fun found s₁ _ _ hfound => ?_
      cases found with
      | none => exact h.pure maybe_none
      | some ports => exact h.map (h.allOf (hfound ports rfl)) fun _ _ => maybe_some
  | .or [], action, s, _, _ => by
      rw [Session.lowerState]
      exact h.map (h.constPort _) fun _ _ => maybe_some
  | .or (member :: members), action, s, hroots, haction => by
      rw [Session.lowerState]
      simp only [StateExpr.conditions, StateExpr.conditionsAmong, List.mem_append] at hroots
      refine h.bind (lowerState h member (fun id hid => hroots id (Or.inl hid)) haction)
        fun first s₁ _ hgrows₁ hfirst => ?_
      refine h.bind (lowerSomeStates h members (fun id hid => hroots id (Or.inr hid))
        (haction.mono fun _ => h.mono hgrows₁)) fun rest s₂ _ hgrows₂ hrest => ?_
      refine h.anyOf? fun q hq => ?_
      rcases List.mem_append.mp hq with hq | hq
      · exact h.mono hgrows₂ (hfirst q (Option.mem_toList.mp hq))
      · exact hrest q hq
  | .not inner, action, s, hroots, haction => by
      rw [Session.lowerState]
      refine h.bind (lowerState h inner (by simpa [StateExpr.conditions] using hroots) haction)
        fun found s₁ _ _ hfound => ?_
      cases found with
      | some port =>
          refine h.map (h.add _ _ ?_) fun _ _ => maybe_some
          exact fun q hq => List.mem_singleton.mp hq ▸ hfound port rfl
      | none => exact h.map (h.constPort _) fun _ _ => maybe_some
  | .explicit activate deactivate, action, s, hroots, haction => by
      rw [Session.lowerState_explicit]
      simp only [StateExpr.conditions, List.mem_append] at hroots
      refine h.bind (lowerState h activate (fun id hid => hroots id (Or.inl hid)) haction)
        fun found s₁ _ hgrows₁ hfound => ?_
      cases found with
      | none => exact h.pure maybe_none
      | some set =>
          have hoff : D.Safe (Session.lowerDeactivation program action deactivate) s₁
              (Maybe D) := by
            cases deactivate with
            | none => exact h.pure maybe_none
            | some e =>
                exact lowerState h e
                  (fun id hid => hroots id (Or.inr (by rwa [StateExpr.conditionsIfAny])))
                  (haction.mono fun _ => h.mono hgrows₁)
          refine h.bind hoff fun off s₂ _ hgrows₂ hoff => ?_
          exact h.lowerLatch (h.mono hgrows₂ (hfound set rfl)) hoff
  | .long inner duration, action, s, hroots, haction => by
      rw [Session.lowerState]
      refine h.bind (lowerState h inner (by simpa [StateExpr.conditions] using hroots) haction)
        fun found s₁ _ _ hfound => ?_
      cases found with
      | some port =>
          refine h.map (h.add _ _ ?_) fun _ _ => maybe_some
          exact fun q hq => List.mem_singleton.mp hq ▸ hfound port rfl
      | none => exact h.pure maybe_none
  | .scoped name inner, action, s, hroots, haction => by
      rw [Session.lowerState]
      cases hfind : action.find? name with
      | none => exact h.throw rfl
      | some found =>
          exact lowerState h inner (by simpa [StateExpr.conditions] using hroots)
            (haction.find? hfind)
  | .named name inner, action, s, hroots, haction => by
      rw [Session.lowerState]
      refine h.bind (lowerState h inner (by simpa [StateExpr.conditions] using hroots) haction)
        fun found s₁ _ _ hfound => ?_
      cases found with
      | some port =>
          refine h.bind (h.register _ (hfound port rfl)) fun _ s₂ _ hgrows _ => ?_
          exact h.pure (maybe_some (h.mono hgrows (hfound port rfl)))
      | none => exact h.pure maybe_none

theorem lowerAllStates (h : D.Lawful program) : ∀ (members : List (StateExpr α))
    {action : ActionPorts} {s : Session α}, (∀ id ∈ StateExpr.conditionsAmong members, D.Root id) →
    action.Every (D.Port s) → D.Safe (Session.lowerAllStates program action members) s
      fun found s' => ∀ ports ∈ found, ∀ q ∈ ports, D.Port s' q
  | [], action, s, _, _ => by
      rw [Session.lowerAllStates]
      refine h.pure ?_
      intro ports hports q hq
      cases hports
      cases hq
  | member :: rest, action, s, hroots, haction => by
      rw [Session.lowerAllStates]
      simp only [StateExpr.conditionsAmong, List.mem_append] at hroots
      refine h.bind (lowerState h member (fun id hid => hroots id (Or.inl hid)) haction)
        fun first s₁ _ hgrows₁ hfirst => ?_
      cases first with
      | none => exact h.pure fun ports hports => by cases hports
      | some port =>
          refine h.bind (lowerAllStates h rest (fun id hid => hroots id (Or.inr hid))
            (haction.mono fun _ => h.mono hgrows₁)) fun found s₂ _ hgrows₂ hfound => ?_
          refine h.pure ?_
          intro ports hports q hq
          obtain ⟨others, hothers, rfl⟩ := Option.map_eq_some_iff.mp hports
          rcases List.mem_cons.mp hq with rfl | hq
          · exact h.mono hgrows₂ (hfirst _ rfl)
          · exact hfound others hothers q hq

theorem lowerSomeStates (h : D.Lawful program) : ∀ (members : List (StateExpr α))
    {action : ActionPorts} {s : Session α}, (∀ id ∈ StateExpr.conditionsAmong members, D.Root id) →
    action.Every (D.Port s) → D.Safe (Session.lowerSomeStates program action members) s
      fun ports s' => ∀ q ∈ ports, D.Port s' q
  | [], action, s, _, _ => by
      rw [Session.lowerSomeStates]
      exact h.pure (by simp)
  | member :: rest, action, s, hroots, haction => by
      rw [Session.lowerSomeStates]
      simp only [StateExpr.conditionsAmong, List.mem_append] at hroots
      refine h.bind (lowerState h member (fun id hid => hroots id (Or.inl hid)) haction)
        fun first s₁ _ hgrows₁ hfirst => ?_
      refine h.bind (lowerSomeStates h rest (fun id hid => hroots id (Or.inr hid))
        (haction.mono fun _ => h.mono hgrows₁)) fun ports s₂ _ hgrows₂ hports => ?_
      refine h.pure fun q hq => ?_
      rcases List.mem_append.mp hq with hq | hq
      · exact h.mono hgrows₂ (hfirst q (Option.mem_toList.mp hq))
      · exact hports q hq

end

/-! ### Actions -/

theorem lowerRaises (h : D.Lawful program) {raises : List RaiseSite} {signals : Registry}
    (hroots : ∀ id ∈ raises.map (·.condition), D.Root id) (hsignals : signals.Every (D.Port s)) :
    D.Safe (Session.lowerRaises program raises signals) s fun r s' => r.Every (D.Port s') := by
  induction raises generalizing s signals with
  | nil => exact h.pure hsignals
  | cons site rest ih =>
      rw [List.map_cons, List.forall_mem_cons] at hroots
      refine h.bind (h.lower hroots.1) fun port s₁ _ hgrows₁ hport => ?_
      refine h.bind (h.expectBoolean port _) fun _ s₂ _ hgrows₂ _ => ?_
      exact ih hroots.2 ((hsignals.mono fun _ hq => h.mono hgrows₂ (h.mono hgrows₁ hq)).register
        (h.mono hgrows₂ hport) _)

theorem registerCompleted (h : D.Lawful program) {completed : PortId} {signals : Registry}
    (hcompleted : D.Port s completed) (hsignals : signals.Every (D.Port s)) :
    D.Safe (Session.registerCompleted completed signals : Lowering α Registry) s
      fun r s' => r.Every (D.Port s') := by
  refine h.bind (h.add _ _ fun q hq => List.mem_singleton.mp hq ▸ hcompleted)
    fun active s₁ _ hgrows hactive => ?_
  have hboth := (hsignals.register hcompleted (.state .completed)).mono fun _ => h.mono hgrows
  exact h.pure (hboth.register hactive _)

theorem lowerMotion (h : D.Lawful program) {motion : Motion α}
    (hroots : ∀ id ∈ motion.expressions, D.Root id)
    (hsource : ∀ {channel position scale next distance},
      motion = .ramp channel position scale next distance →
      ∀ {s}, D.Source s ⟨[position], .expression next⟩) :
    D.Safe (Session.lowerMotion program motion) s fun r s' => D.Port s' r.2 := by
  cases motion with
  | track channel setpoint within settle =>
      simp only [Motion.expressions, List.forall_mem_cons] at hroots
      refine h.bind (h.lower hroots.1) fun out s₁ _ _ _ => ?_
      refine h.bind (h.lower hroots.2.1) fun inside s₂ _ _ hinside => ?_
      refine h.bind (h.add _ _ fun q hq => List.mem_singleton.mp hq ▸ hinside)
        fun completed s₃ _ _ hcompleted => ?_
      exact h.pure hcompleted
  | ramp channel position scale next distance =>
      simp only [Motion.expressions, List.forall_mem_cons] at hroots
      refine h.bind (h.addResolver (hsource rfl)) fun _ s₁ _ _ _ => ?_
      refine h.bind (h.lower hroots.1) fun out s₂ _ _ _ => ?_
      refine h.bind (h.lower hroots.2.1) fun left s₃ _ _ hleft => ?_
      refine h.bind (h.constPort _) fun tolerance s₄ _ hgrows htolerance => ?_
      refine h.bind (h.add _ _ ?_) fun completed s₅ _ _ hcompleted => h.pure hcompleted
      intro q hq
      rcases List.mem_pair.mp hq with rfl | rfl
      · exact h.mono hgrows hleft
      · exact htolerance
  | wait duration =>
      refine h.bind (h.constPort _) fun on s₁ _ _ hon => ?_
      refine h.bind (h.add _ _ fun q hq => List.mem_singleton.mp hq ▸ hon)
        fun completed s₂ _ _ hcompleted => ?_
      exact h.pure hcompleted

/-- **Actions** obey. -/
theorem lowerAction (h : D.Lawful program) {a : Action α}
    (hroots : ∀ id ∈ a.expressions, D.Root id)
    (hsource : ActionSources D a) :
    D.Safe (Session.lowerAction program a) s fun ports s' => ports.Every (D.Port s') := by
  induction a generalizing s with
  | basic name motion raises =>
      simp only [Action.expressions, Action.motion, Action.conditions, List.mem_append] at hroots
      rw [Session.lowerAction]
      refine h.bind (h.lowerMotion (fun id hid => hroots id (Or.inl hid)) hsource)
        fun found s₁ _ _ hcompleted => ?_
      obtain ⟨outputs, completed⟩ := found
      refine h.bind (h.registerCompleted hcompleted Registry.every_empty)
        fun signals s₂ _ _ hsignals => ?_
      refine h.bind (h.lowerRaises (fun id hid => hroots id (Or.inr hid)) hsignals)
        fun signals s₃ _ _ hsignals => ?_
      exact h.pure (.mk hsignals (by simp))
  | wrapped name inner handled raises ih =>
      simp only [Action.expressions, Action.motion, Action.conditions, List.mem_append] at hroots ih
      rw [Session.lowerAction]
      refine h.bind (ih (fun id hid => hroots id (hid.imp_right Or.inl)) hsource)
        fun ports s₁ _ _ hports => ?_
      refine h.bind (h.anyOf (hports.signals.statePorts .completed))
        fun completed s₂ _ hgrows₂ hcompleted => ?_
      have hports₂ := hports.mono fun _ => h.mono hgrows₂
      refine h.bind (h.registerCompleted hcompleted (hports₂.signals.passedOn handled))
        fun signals s₃ _ hgrows₃ hsignals => ?_
      refine h.bind (h.lowerRaises (fun id hid => hroots id (Or.inr (Or.inr hid))) hsignals)
        fun signals s₄ _ hgrows₄ hsignals => ?_
      refine h.pure (.mk hsignals ?_)
      intro other hother
      cases List.mem_singleton.mp hother
      exact hports₂.mono fun _ hq => h.mono hgrows₄ (h.mono hgrows₃ hq)

/-! ### Commands -/

theorem lowerHandlers (h : D.Lawful program) {action : ActionPorts} {handlers : List (Handler α)}
    {done : Session.Handled}
    (hroots : ∀ id ∈ handlers.flatMap fun handler => handler.trigger.conditions, D.Root id)
    (haction : action.Every (D.Port s)) (hsignals : done.signals.Every (D.Port s))
    (hcancels : ∀ q ∈ done.cancels, D.Port s q) :
    D.Safe (Session.lowerHandlers program action handlers done) s fun handled s' =>
      handled.signals.Every (D.Port s') ∧ ∀ q ∈ handled.cancels, D.Port s' q := by
  induction handlers generalizing s done with
  | nil => exact h.pure ⟨hsignals, hcancels⟩
  | cons handler rest ih =>
      simp only [List.flatMap_cons, List.mem_append] at hroots
      have hrest := fun id hid => hroots id (Or.inr hid)
      refine h.bind (h.lowerState handler.trigger (fun id hid => hroots id (Or.inl hid)) haction)
        fun found s₁ _ hgrows hfound => ?_
      have haction₁ := haction.mono fun _ => h.mono hgrows
      have hsignals₁ := hsignals.mono fun _ => h.mono hgrows
      have hcancels₁ : ∀ q ∈ done.cancels, D.Port s₁ q := fun q hq => h.mono hgrows (hcancels q hq)
      cases found with
      | none => exact ih hrest haction₁ hsignals₁ hcancels₁
      | some port =>
          have hport : D.Port s₁ port := hfound port rfl
          cases handler.reaction with
          | raise c => exact ih hrest haction₁ (hsignals₁.register hport _) hcancels₁
          | cancel =>
              refine ih hrest haction₁ hsignals₁ ?_
              intro q hq
              rcases List.mem_append.mp hq with hq | hq
              · exact hcancels₁ q hq
              · exact List.mem_singleton.mp hq ▸ hport

omit [Scalar α] in
theorem mem_kept {p : Pool α} {c : Command α} {handle : Nat} (hhandle : handle ∈ c.persists)
    {source : ExprId} (hsource : p.persistSource handle = .ok source) : source ∈ c.kept p := by
  unfold Pool.persistSource Pool.persistOf at hsource
  cases hentry : p.persists[handle]? with
  | none => simp [hentry, Except.map] at hsource
  | some entry =>
      simp only [hentry, Except.map, Except.ok.injEq] at hsource
      exact List.mem_filterMap.mpr ⟨handle, hhandle, by simp [hentry, hsource]⟩

theorem storeEach (h : D.Lawful program) {handles : List Nat}
    (hroots : ∀ handle ∈ handles, ∀ source, program.pool.persistSource handle = .ok source →
      D.Root source) : D.Safe (Session.storeEach program handles) s fun _ _ => True := by
  induction handles generalizing s with
  | nil => exact h.pure trivial
  | cons handle rest ih =>
      rw [List.forall_mem_cons] at hroots
      exact h.bind (h.storePersisted hroots.1) fun _ _ _ _ _ => ih hroots.2

theorem lowerCancelInput (h : D.Lawful program) {c : Command α}
    (hroots : ∀ id ∈ c.expressions program.pool, D.Root id) (hsources : CommandSources D c) :
    D.Safe (Session.lowerCancelInput program c) s fun r s' =>
      r.1.Every (D.Port s') ∧ D.Port s' r.2 := by
  have haction : ∀ id ∈ c.action.expressions, D.Root id :=
    fun id hid => hroots id (by simp [Command.expressions, hid])
  have hinput : D.Root c.cancelInput := hroots c.cancelInput (by simp [Command.expressions])
  unfold Session.lowerCancelInput
  refine h.bind (h.lowerAction haction hsources.action) fun action s₁ _ _ hports => ?_
  refine h.bind (h.addResolver hsources.scale) fun _ s₂ _ hgrows₂ _ => ?_
  -- Ramps get their scale from the command.
  refine h.when (h.addResolver hsources.ramps) fun s₃ _ hgrows₃ => ?_
  refine h.bind (h.lower hinput) fun cancelInput s₄ _ hgrows₄ hport => h.pure ⟨?_, hport⟩
  exact hports.mono fun _ => h.mono (h.trans hgrows₂ (h.trans hgrows₃ hgrows₄))

theorem lowerCancellation (h : D.Lawful program) {c : Command α}
    (hroots : ∀ id ∈ c.expressions program.pool, D.Root id) (hsources : CommandSources D c)
    {action : ActionPorts} (haction : action.Every (D.Port s)) {handled : Session.Handled}
    (hsignals : handled.signals.Every (D.Port s)) (hcancels : ∀ q ∈ handled.cancels, D.Port s q) :
    D.Safe (Session.lowerCancellation program c action handled) s fun ports s' =>
      ports.Every (D.Port s') := by
  have hscale : D.Root c.scale := hroots c.scale (by simp [Command.expressions])
  have heffective : D.Root c.effective := hroots c.effective (by simp [Command.expressions])
  have hstores : ∀ handle ∈ c.persists, ∀ source,
      program.pool.persistSource handle = .ok source → D.Root source :=
    fun handle hhandle source hsource =>
      hroots source (List.mem_append_right _ (mem_kept hhandle hsource))
  refine h.bind (h.anyOf hcancels) fun cancel s₁ _ hg₁ hcancel => ?_
  refine h.bind (h.addResolver (hsources.cancel hcancel)) fun _ s₂ _ hg₂ _ => ?_
  refine h.bind (h.lower hscale) fun scale s₃ _ hg₃ hscale => ?_
  refine h.bind (h.constPort _) fun still s₄ _ hg₄ hstill => ?_
  have hinputs : ∀ q ∈ [scale, still], D.Port s₄ q := by
    intro q hq
    rcases List.mem_pair.mp hq with rfl | rfl
    · exact h.mono hg₄ hscale
    · exact hstill
  refine h.bind (h.add _ _ hinputs) fun stopped s₅ _ hg₅ hstopped => ?_
  have hg₁₅ := h.trans hg₂ (h.trans hg₃ (h.trans hg₄ hg₅))
  have hboth : ∀ q ∈ [cancel, stopped], D.Port s₅ q := by
    intro q hq
    rcases List.mem_pair.mp hq with rfl | rfl
    · exact h.mono hg₁₅ hcancel
    · exact hstopped
  refine h.bind (h.allOf hboth) fun cancelled s₆ _ hg₆ hcancelled => ?_
  refine h.bind (h.lower heffective) fun effective s₇ _ hg₇ _ => ?_
  refine h.bind (h.storeEach hstores) fun _ s₈ _ hg₈ _ => ?_
  have hlast := h.trans hg₇ hg₈
  have hgrows := h.trans hg₁ (h.trans hg₁₅ (h.trans hg₆ hlast))
  refine h.pure (.mk ?_ ?_)
  · exact (hsignals.mono fun _ => h.mono hgrows).register (h.mono hlast hcancelled) _
  · intro other hother
    cases List.mem_singleton.mp hother
    exact haction.mono fun _ => h.mono hgrows

/-- **Commands** obey. -/
theorem lowerCommand (h : D.Lawful program) {c : Command α}
    (hroots : ∀ id ∈ c.expressions program.pool, D.Root id)
    (hsources : CommandSources D c) :
    D.Safe (Session.lowerCommand program c) s fun ports s' => ports.Every (D.Port s') := by
  have hconditions : ∀ id ∈ c.conditions, D.Root id :=
    fun id hid => hroots id (by simp [Command.expressions, hid])
  rw [Session.lowerCommand_stages]
  refine h.bind (h.lowerCancelInput hroots hsources) fun (action, input) s₁ _ _ hports => ?_
  obtain ⟨haction, hinput⟩ := hports
  refine h.bind (h.lowerHandlers hconditions haction haction.signals fun q hq =>
    List.mem_singleton.mp hq ▸ hinput) fun handled s₂ _ hgrows₂ hhandled => ?_
  exact h.lowerCancellation hroots hsources (haction.mono fun _ => h.mono hgrows₂) hhandled.1
    hhandled.2

/-! ### Requests -/

/-- The ports of an action or a command, if that is what has been lowered. -/
def Lowered (D : Discipline α) (target : PortId ⊕ ActionPorts) (s : Session α) : Prop :=
  ∀ ports, target = .inr ports → ports.Every (D.Port s)

theorem lowerTarget (h : D.Lawful program) {request : Request α}
    (hroots : ∀ id ∈ request.expressions program.pool, D.Root id)
    (hsources : RequestSources D request.target) :
    D.Safe (Session.lowerTarget program request.target) s (Lowered D) := by
  unfold Request.expressions at hroots
  cases htarget : request.target with
  | expr id =>
      rw [htarget] at hroots
      refine h.bind (h.lower (hroots id (by simp [Target.expressions]))) fun port s₁ _ _ _ => ?_
      refine h.bind (h.expose _ _) fun _ s₂ _ _ _ => h.pure ?_
      intro ports hports
      cases hports
  | action a =>
      rw [htarget] at hroots hsources
      rw [Session.lowerTarget]
      refine h.when (h.addResolver hsources.2) fun t _ _ => ?_
      refine h.bind (h.lowerAction (fun id hid => hroots id (List.mem_append_left _ hid))
        hsources.1) fun ports s₁ _ _ hports => h.pure ?_
      rintro _ ⟨⟩
      exact hports
  | command c =>
      rw [htarget] at hroots hsources
      rw [Session.lowerTarget]
      refine h.bind (h.lowerCommand (fun id hid => hroots id (List.mem_append_left _ hid))
        hsources) fun ports s₁ _ _ hports => h.pure ?_
      rintro _ ⟨⟩
      exact hports

theorem publish (h : D.Lawful program) {target : PortId ⊕ ActionPorts}
    (htarget : Lowered D target s) :
    D.Safe (Session.publish target : Lowering α Unit) s fun _ _ => True := by
  have hexpose : ∀ {names : List (String × PortId)} {t : Session α},
      D.Safe (Session.exposeEach names : Lowering α Unit) t fun _ _ => True := by
    intro names
    induction names with
    | nil => exact h.pure trivial
    | cons entry rest ih => exact h.bind (h.expose _ _) fun _ _ _ _ _ => ih
  have hregister : ∀ {entries : List (Signal × PortId)} {t : Session α},
      (∀ entry ∈ entries, D.Port t entry.2) →
      D.Safe (Session.registerEach entries : Lowering α Unit) t fun _ _ => True := by
    intro entries
    induction entries with
    | nil => exact fun _ => h.pure trivial
    | cons entry rest ih =>
        intro t hentries
        rw [List.forall_mem_cons] at hentries
        refine h.bind (h.register _ hentries.1) fun _ t' _ hgrows _ => ih ?_
        exact fun entry hentry => h.mono hgrows (hentries.2 entry hentry)
  cases target with
  | inl port => exact h.pure trivial
  | inr ports =>
      refine h.bind hexpose fun _ s₁ _ hgrows _ => hregister ?_
      exact fun entry hentry => h.mono hgrows ((htarget ports rfl).signals _ _ hentry)

theorem observeEach (h : D.Lawful program) {ids : List ExprId} (hroots : ∀ id ∈ ids, D.Root id)
    {channels : Table ExprId String} :
    D.Safe (Session.observeEach program ids channels) s fun _ _ => True := by
  induction ids generalizing s channels with
  | nil => exact h.pure trivial
  | cons id rest ih =>
      rw [List.forall_mem_cons] at hroots
      refine h.bind (h.lower hroots.1) fun port _ _ _ _ => ?_
      exact h.bind (h.expose _ _) fun _ _ _ _ _ => ih hroots.2

theorem aggregateStates (h : D.Lawful program) {registry : Registry}
    (hregistry : registry.Every (D.Port s)) {states : List State} {ports : Table State PortId} :
    D.Safe (Session.aggregateStates registry states ports) s fun _ _ => True := by
  induction states generalizing s ports with
  | nil => exact h.pure trivial
  | cons state rest ih =>
      refine h.bind (h.anyOf (hregistry.statePorts state)) fun _ _ _ hgrows _ => ?_
      exact ih (hregistry.mono fun _ => h.mono hgrows)

theorem aggregateClasses (h : D.Lawful program) {registry : Registry}
    (hregistry : registry.Every (D.Port s)) {classes : List ExceptionClass}
    {ports : Table ExceptionClass PortId} :
    D.Safe (Session.aggregateClasses registry classes ports) s fun _ _ => True := by
  induction classes generalizing s ports with
  | nil => exact h.pure trivial
  | cons c rest ih =>
      rw [Session.aggregateClasses]
      split
      · exact ih hregistry
      · refine h.bind (h.anyOf (hregistry.exceptionPorts c)) fun _ _ _ hgrows _ => ?_
        exact ih (hregistry.mono fun _ => h.mono hgrows)

/-- **Requests** obey if their ends do: all that comes before does. -/
theorem compile (h : D.Lawful program) {request : Request α}
    (hroots : ∀ id ∈ request.expressions program.pool, D.Root id)
    (hsources : RequestSources D request.target)
    (hfinish : ∀ target t, Session.lowerTarget program request.target s = .ok target t →
      ∀ t', D.Holds t' → D.Grows t t' → D.Safe (Session.finish program) t' fun _ _ => True) :
    D.Safe (Session.compile program request) s fun _ _ => True := by
  intro hs
  -- The end of the session is looked at from where the target has been lowered.
  have hlower := h.lowerTarget hroots hsources (s := s)
  have htarget : D.Safe (Session.lowerTarget program request.target) s fun target t =>
      Lowered D target t ∧ ∀ t', D.Holds t' → D.Grows t t' →
        D.Safe (Session.finish program) t' fun _ _ => True := by
    intro hs
    obtain ⟨hok, herror⟩ := hlower hs
    refine ⟨fun target t hrun => ?_, herror⟩
    obtain ⟨ht, hgrows, hports⟩ := hok target t hrun
    exact ⟨ht, hgrows, hports, hfinish target t hrun⟩
  have hobserved : ∀ id ∈ request.observed, D.Root id := fun id hid =>
    hroots id (List.mem_append_right _ hid)
  refine (show D.Safe (Session.compile program request) s fun _ _ => True from ?_) hs
  refine h.bind htarget fun target s₁ _ _ hs₁ => ?_
  obtain ⟨hports, hend⟩ := hs₁
  refine h.bind (h.publish hports) fun _ s₂ _ hg₂ _ => ?_
  refine h.bind (h.observeEach hobserved) fun observed s₃ hs₃ hg₃ _ => ?_
  -- The registry is read, and nothing else happens in between.
  intro hholds
  rw [show ∀ (f : Session α → Lowering α (CompiledNet α)), (get >>= f) s₃ = f s₃ s₃ from
    fun f => get_bind]
  have hregistry := h.signals hholds
  refine (h.bind (h.aggregateStates hregistry) fun states s₄ _ hg₄ _ => ?_) hholds
  refine h.bind (h.aggregateClasses (hregistry.mono fun _ => h.mono hg₄))
    fun exceptions s₅ hs₅ hg₅ _ => ?_
  refine h.bind (hend s₅ hs₅ (h.trans hg₂ (h.trans hg₃ (h.trans hg₄ hg₅))))
    fun fragment s₆ _ _ _ => h.pure trivial

end Lawful

end Discipline

end SignalNet
