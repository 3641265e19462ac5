import SignalNet.Compile.Compiler
import SignalNet.Proofs.Compile.Descent
import SignalNet.Proofs.Compile.Typing

/-!
# Sessions step by step

Lowering states, actions and commands comes down to a few steps: blocks are
added, constants and expressions are lowered, sources for placeholders are
collected, and ports get names.  A relation between sessions that these steps
respect (`Session.Closed`) is respected by everything that is put together
from them.

The sources that an action collects are meant for the positions of its ramps
(`Action.positions`), so a relation may also speak about what has been
collected.
-/

namespace SignalNet

/-- The placeholders for the positions of the ramps in an action. -/
def Action.positions {α : Type} : Action α → List ExprId
  | basic _ (.ramp _ position _ _ _) _ => [position]
  | basic _ _ _ => []
  | wrapped _ inner _ _ => inner.positions

namespace Session

open Computing Lowering

variable {α : Type}

/-- A computation that succeeds relates the session that it starts in with the
session that it leaves. -/
def Leaves (R : Session α → Session α → Prop) {β : Type} (x : Lowering α β) : Prop :=
  ∀ (s s' : Session α) (b : β), x s = .ok b s' → R s s'

/-- Adding blocks and constants respects a relation. -/
structure Stepwise [Scalar α] (R : Session α → Session α → Prop) : Prop where
  refl : ∀ s, R s s
  trans : ∀ {s₁ s₂ s₃}, R s₁ s₂ → R s₂ s₃ → R s₁ s₃
  add : ∀ primitive inputs kind, Leaves R (add primitive inputs kind)
  constPort : ∀ v, Leaves R (constPort v)

/-- So does lowering expressions. -/
structure Expressing [Scalar α] (program : Program α) (R : Session α → Session α → Prop) : Prop
    extends Stepwise R where
  lower : ∀ id, Leaves R (lower program id)

/-- And giving names to their ports. -/
structure Naming [Scalar α] (program : Program α) (R : Session α → Session α → Prop) : Prop
    extends Expressing program R where
  expose : ∀ name port, Leaves R (wire (Fragment.expose name port))

/-- The steps that actions are lowered by respect a relation.  Sources are only
collected for placeholders among the given targets, and milestones are the only
signals that are registered on the way. -/
structure Acting [Scalar α] (program : Program α) (targets : List ExprId)
    (R : Session α → Session α → Prop) : Prop extends Naming program R where
  addResolver : ∀ r, (∀ id ∈ r.targets, id ∈ targets) → Leaves R (addResolver r)
  milestone : ∀ name port, Leaves R (register (.state (.milestone name)) port)

/-- All steps that sessions are made of respect a relation, sinks included. -/
structure Closed [Scalar α] (program : Program α) (targets : List ExprId)
    (R : Session α → Session α → Prop) : Prop extends Acting program targets R where
  storePersisted : ∀ handle, Leaves R (storePersisted program handle)

/-- The steps by which a session comes to its end respect a relation. -/
structure Finishing [Scalar α] (program : Program α) (R : Session α → Session α → Prop) : Prop
    extends Expressing program R where
  resolve : ∀ number port, Leaves R (resolve number port)

/-! ### Blocks and constants -/

namespace Stepwise

variable [Scalar α] {R : Session α → Session α → Prop}

theorem pure (h : Stepwise R) {β : Type} (b : β) : Leaves R (Pure.pure b : Lowering α β) := by
  intro s s' c hrun
  obtain ⟨-, rfl⟩ := pure_eq_ok.mp hrun
  exact h.refl s

theorem bind (h : Stepwise R) {β γ : Type} {x : Lowering α β} {f : β → Lowering α γ}
    (hx : Leaves R x) (hf : ∀ b, Leaves R (f b)) : Leaves R (x >>= f) := by
  intro s s' c hrun
  obtain ⟨b, t, hfirst, hrest⟩ := bind_eq_ok.mp hrun
  exact h.trans (hx s t b hfirst) (hf b t s' c hrest)

omit [Scalar α] in
theorem map {β γ : Type} {x : Lowering α β} (hx : Leaves R x) (g : β → γ) :
    Leaves R (g <$> x) := by
  intro s s' c hrun
  obtain ⟨b, hfirst, -⟩ := map_eq_ok.mp hrun
  exact hx s s' b hfirst

theorem anyOf (h : Stepwise R) (ports : List PortId) :
    Leaves R (Session.anyOf ports : Lowering α PortId) := by
  match ports with
  | [] => exact h.constPort _
  | [port] => exact h.pure port
  | _ :: _ :: _ => exact h.add _ _ _

theorem allOf (h : Stepwise R) (ports : List PortId) :
    Leaves R (Session.allOf ports : Lowering α PortId) := by
  match ports with
  | [] => exact h.constPort _
  | [port] => exact h.pure port
  | _ :: _ :: _ => exact h.add _ _ _

theorem anyOf? (h : Stepwise R) (ports : List PortId) :
    Leaves R (Session.anyOf? ports : Lowering α (Option PortId)) := by
  cases ports with
  | nil => exact h.pure none
  | cons port rest => exact map (h.anyOf (port :: rest)) some

theorem resetPort (h : Stepwise R) (off : Option PortId) :
    Leaves R (Session.resetPort off : Lowering α PortId) := by
  cases off with
  | none => exact h.constPort _
  | some port => exact h.pure port

theorem lowerLatch (h : Stepwise R) (set : PortId) (off : Option PortId) :
    Leaves R (Session.lowerLatch set off : Lowering α (Option PortId)) :=
  h.bind (h.resetPort off) fun reset => map (h.add _ [set, reset] _) some

theorem expectBoolean (h : Stepwise R) (port : PortId) (what : String) :
    Leaves R (Session.expectBoolean port what : Lowering α Unit) := by
  intro s s' u hrun
  obtain ⟨rfl, -⟩ := expectBoolean_eq_ok hrun
  exact h.refl _

theorem lowerHop (h : Stepwise R) (host : Host α) (hop : Hop α) :
    Leaves R (Session.lowerHop host hop) := by
  cases hop with
  | fixed pose => exact h.constPort _
  | measured sensor device inverted =>
      have hcheck : Leaves R (checkDevice host device) := by
        intro s s' u hrun
        rw [checkDevice_eq_ok hrun]
        exact h.refl s
      refine h.bind hcheck fun _ => h.bind (h.add _ _ _) fun measured => ?_
      split
      · exact h.add _ _ _
      · exact h.pure measured

theorem lowerHops (h : Stepwise R) (host : Host α) (before : PortId) (hops : List (Hop α)) :
    Leaves R (Session.lowerHops host before hops) := by
  induction hops generalizing before with
  | nil => exact h.pure before
  | cons hop rest ih =>
      exact h.bind (h.lowerHop host hop) fun _ => h.bind (h.add _ _ _) fun product => ih product

theorem lowerRelation (h : Stepwise R) (host : Host α) (source target : String) :
    Leaves R (Session.lowerRelation host source target) := by
  unfold Session.lowerRelation
  split
  · exact fun s s' b hrun => absurd hrun throw_ne_ok
  · exact h.constPort _
  · exact h.bind (h.lowerHop host _) fun first => h.lowerHops host first _

section Expressions

variable {program : Program α}

/-- Opening the block of a placeholder respects a relation. -/
def Opening (program : Program α) (R : Session α → Session α → Prop) : Prop :=
  ∀ (id : ExprId) (n : Node α) (number : Nat) (label : String), program.pool.get? id = some n →
    n.form = .placeholder number label → Leaves R (openPlaceholder program.pool id)

/-- Lowering one node. -/
theorem node (h : Stepwise R) (hopen : Opening program R) {id : ExprId} {n : Node α}
    {inputs : List PortId} {s s' : Session α} {q : PortId}
    (hn : program.pool.get? id = some n) (hby : LoweredBy program id n inputs s q s') :
    R s s' := by
  cases hby with
  | constant _ hrun => exact h.constPort _ _ _ _ hrun
  | parameter _ _ _ hrun => exact h.constPort _ _ _ _ hrun
  | relation _ hrun => exact h.lowerRelation _ _ _ _ _ _ hrun
  | placeholder hform hrun => exact hopen _ _ _ _ hn hform _ _ _ hrun
  | block _ hrun => exact h.add _ _ _ _ _ _ hrun

/-- Lowering one node by any rule. -/
theorem ruled (h : Stepwise R) (hopen : Opening program R) {id : ExprId} {n : Node α}
    {inputs : List PortId} {s s' : Session α} {q : PortId}
    (hn : program.pool.get? id = some n) (hby : RuledBy program id n inputs s q s') :
    R s s' := by
  cases hby with
  | library hby => exact h.node hopen hn hby
  | block _ hrun => exact h.add _ _ _ _ _ _ hrun
  | constant _ hrun => exact h.constPort _ _ _ _ hrun
  | existing _ hsame => exact hsame ▸ h.refl s

theorem lowerEach (h : Stepwise R) {lower : ExprId → Lowering α PortId}
    (hlower : ∀ id, Leaves R (lower id)) (ids : List ExprId) :
    Leaves R (Session.lowerEach lower ids) := by
  induction ids with
  | nil => exact h.pure []
  | cons id rest ih => exact h.bind (hlower id) fun _ => h.bind ih fun _ => h.pure _

/-- **Expressions** respect what the steps respect, if entering them does,
whatever the rules are. -/
theorem lower (h : Stepwise R) (hopen : Opening program R)
    (henter : ∀ s id q, R s (entered s id q)) (id : ExprId) :
    Leaves R (Session.lower program id) := by
  have hwithin : ∀ fuel id, Leaves R (lowerWithin program fuel id) := by
    intro fuel
    induction fuel with
    | zero => exact fun id s s' q hrun => absurd hrun throw_ne_ok
    | succ fuel ih =>
        intro id s s' q hrun
        rcases lowerWithin_eq_ok hrun with ⟨-, rfl⟩ |
          ⟨-, n, inputs, others, s₁, s₂, s₃, hn, heach, hothers, hby, rfl⟩
        · exact h.refl _
        · have hoperands := h.lowerEach ih _ _ _ _ heach
          have hdetour := h.lowerEach ih _ _ _ _ hothers
          exact h.trans (h.trans hoperands hdetour) (h.trans (h.ruled hopen hn hby) (henter _ _ _))
  exact hwithin _ id

end Expressions

theorem aggregateStates (h : Stepwise R) (registry : Registry)
    (states : List State) (ports : Table State PortId) :
    Leaves R (Session.aggregateStates registry states ports :
      Lowering α (Table State PortId)) := by
  induction states generalizing ports with
  | nil => exact h.pure ports
  | cons state rest ih => exact h.bind (h.anyOf _) fun _ => ih _

theorem aggregateClasses (h : Stepwise R) (registry : Registry)
    (classes : List ExceptionClass) (ports : Table ExceptionClass PortId) :
    Leaves R (Session.aggregateClasses registry classes ports :
      Lowering α (Table ExceptionClass PortId)) := by
  induction classes generalizing ports with
  | nil => exact h.pure ports
  | cons c rest ih =>
      rw [Session.aggregateClasses]
      split
      · exact ih ports
      · exact h.bind (h.anyOf _) fun _ => ih _

end Stepwise

namespace Acting

open Stepwise (map)

variable [Scalar α] {program : Program α} {targets : List ExprId}
  {R : Session α → Session α → Prop}

/-! ### State expressions -/

mutual

theorem lowerState (h : Acting program targets R) (action : ActionPorts) : ∀ e : StateExpr α,
    Leaves R (Session.lowerState program action e)
  | .condition id => by
      rw [Session.lowerState]
      split
      · exact h.pure none
      · exact h.bind (h.lower id) fun port => h.bind (h.expectBoolean port _) fun _ => h.pure _
  | .of state => by
      rw [Session.lowerState]
      exact h.anyOf? _
  | .exception c => by
      rw [Session.lowerState]
      exact h.anyOf? _
  | .and members => by
      rw [Session.lowerState]
      refine h.bind (lowerAllStates h action members) fun found => ?_
      cases found with
      | none => exact h.pure none
      | some ports => exact map (h.allOf ports) some
  | .or [] => by
      rw [Session.lowerState]
      exact map (h.constPort _) some
  | .or (member :: members) => by
      rw [Session.lowerState]
      refine h.bind (lowerState h action member) fun first => ?_
      exact h.bind (lowerSomeStates h action members) fun rest => h.anyOf? _
  | .not inner => by
      rw [Session.lowerState]
      refine h.bind (lowerState h action inner) fun found => ?_
      cases found with
      | some port => exact map (h.add _ _ _) some
      | none => exact map (h.constPort _) some
  | .explicit activate deactivate => by
      rw [Session.lowerState_explicit]
      refine h.bind (lowerState h action activate) fun found => ?_
      cases found with
      | none => exact h.pure none
      | some set =>
          refine h.bind ?_ fun off => h.lowerLatch set off
          cases deactivate with
          | none => exact h.pure none
          | some e => exact lowerState h action e
  | .long inner duration => by
      rw [Session.lowerState]
      refine h.bind (lowerState h action inner) fun found => ?_
      cases found with
      | some port => exact map (h.add _ _ _) some
      | none => exact h.pure none
  | .scoped name inner => by
      rw [Session.lowerState]
      cases hfind : action.find? name with
      | none => exact fun s s' b hrun => absurd hrun throw_ne_ok
      | some found => exact lowerState h found inner
  | .named name inner => by
      rw [Session.lowerState]
      refine h.bind (lowerState h action inner) fun found => ?_
      cases found with
      | some port => exact h.bind (h.milestone name port) fun _ => h.pure _
      | none => exact h.pure none

theorem lowerAllStates (h : Acting program targets R) (action : ActionPorts) :
    ∀ members : List (StateExpr α), Leaves R (Session.lowerAllStates program action members)
  | [] => by
      rw [Session.lowerAllStates]
      exact h.pure _
  | member :: rest => by
      rw [Session.lowerAllStates]
      refine h.bind (lowerState h action member) fun first => ?_
      cases first with
      | none => exact h.pure none
      | some port => exact h.bind (lowerAllStates h action rest) fun _ => h.pure _

theorem lowerSomeStates (h : Acting program targets R) (action : ActionPorts) :
    ∀ members : List (StateExpr α), Leaves R (Session.lowerSomeStates program action members)
  | [] => by
      rw [Session.lowerSomeStates]
      exact h.pure _
  | member :: rest => by
      rw [Session.lowerSomeStates]
      refine h.bind (lowerState h action member) fun _ => ?_
      exact h.bind (lowerSomeStates h action rest) fun _ => h.pure _

end

/-! ### Actions and commands -/

theorem lowerRaises (h : Acting program targets R) (raises : List RaiseSite)
    (signals : Registry) : Leaves R (Session.lowerRaises program raises signals) := by
  induction raises generalizing signals with
  | nil => exact h.pure signals
  | cons site rest ih =>
      exact h.bind (h.lower _) fun port => h.bind (h.expectBoolean port _) fun _ => ih _

theorem registerCompleted (h : Acting program targets R) (completed : PortId)
    (signals : Registry) :
    Leaves R (Session.registerCompleted completed signals : Lowering α Registry) :=
  h.bind (h.add _ _ _) fun _ => h.pure _

theorem lowerMotion (h : Acting program targets R) {motion : Motion α}
    (hmotion : ∀ channel position scale next distance,
      motion = .ramp channel position scale next distance → position ∈ targets) :
    Leaves R (Session.lowerMotion program motion) := by
  cases motion with
  | track channel setpoint within settle =>
      exact h.bind (h.lower _) fun _ => h.bind (h.lower _) fun _ =>
        h.bind (h.add _ _ _) fun _ => h.pure _
  | ramp channel position scale next distance =>
      have hresolver : Leaves R (Session.addResolver ⟨[position], .expression next⟩) := by
        refine h.addResolver _ ?_
        intro id hid
        obtain rfl := List.mem_singleton.mp hid
        exact hmotion _ _ _ _ _ rfl
      exact h.bind hresolver fun _ => h.bind (h.lower _) fun _ => h.bind (h.lower _) fun _ =>
        h.bind (h.constPort _) fun _ => h.bind (h.add _ _ _) fun _ => h.pure _
  | wait duration => exact h.bind (h.constPort _) fun _ => h.bind (h.add _ _ _) fun _ => h.pure _

/-- **Actions** respect what the steps respect. -/
theorem lowerAction (h : Acting program targets R) {a : Action α}
    (ha : ∀ id ∈ a.positions, id ∈ targets) : Leaves R (Session.lowerAction program a) := by
  induction a with
  | basic name motion raises =>
      have hmotion : Leaves R (Session.lowerMotion program motion) := by
        refine h.lowerMotion ?_
        rintro channel position scale next distance rfl
        exact ha position (by simp [Action.positions])
      rw [Session.lowerAction]
      exact h.bind hmotion fun _ => h.bind (h.registerCompleted _ _) fun _ =>
        h.bind (h.lowerRaises _ _) fun _ => h.pure _
  | wrapped name inner handled raises ih =>
      rw [Session.lowerAction]
      exact h.bind (ih ha) fun _ => h.bind (h.anyOf _) fun _ =>
        h.bind (h.registerCompleted _ _) fun _ => h.bind (h.lowerRaises _ _) fun _ => h.pure _

theorem lowerHandlers (h : Acting program targets R) (action : ActionPorts)
    (handlers : List (Handler α)) (done : Handled) :
    Leaves R (Session.lowerHandlers program action handlers done) := by
  induction handlers generalizing done with
  | nil => exact h.pure done
  | cons handler rest ih =>
      refine h.bind (h.lowerState action handler.trigger) fun found => ?_
      cases found with
      | none => exact ih done
      | some port =>
          cases handler.reaction with
          | raise c => exact ih _
          | cancel => exact ih _

end Acting

theorem Closed.storeEach [Scalar α] {program : Program α} {targets : List ExprId}
    {R : Session α → Session α → Prop} (h : Closed program targets R) (handles : List Nat) :
    Leaves R (Session.storeEach program handles) := by
  induction handles with
  | nil => exact h.pure ()
  | cons handle rest ih => exact h.bind (h.storePersisted handle) fun _ => ih

/-! ### Names and signals -/

namespace Naming

variable [Scalar α] {program : Program α} {R : Session α → Session α → Prop}

theorem publish (h : Naming program R)
    (hsignal : ∀ signal port, Leaves R (register signal port)) (target : PortId ⊕ ActionPorts) :
    Leaves R (Session.publish target : Lowering α Unit) := by
  have hexpose : ∀ names : List (String × PortId),
      Leaves R (Session.exposeEach names : Lowering α Unit) := by
    intro names
    induction names with
    | nil => exact h.pure ()
    | cons entry rest ih => exact h.bind (h.expose _ _) fun _ => ih
  have hregister : ∀ entries : List (Signal × PortId),
      Leaves R (Session.registerEach entries : Lowering α Unit) := by
    intro entries
    induction entries with
    | nil => exact h.pure ()
    | cons entry rest ih => exact h.bind (hsignal _ _) fun _ => ih
  cases target with
  | inl port => exact h.pure ()
  | inr ports => exact h.bind (hexpose _) fun _ => hregister _

theorem observeEach (h : Naming program R) (ids : List ExprId)
    (channels : Table ExprId String) : Leaves R (Session.observeEach program ids channels) := by
  induction ids generalizing channels with
  | nil => exact h.pure channels
  | cons id rest ih => exact h.bind (h.lower id) fun _ => h.bind (h.expose _ _) fun _ => ih _

end Naming

/-! ### The end of a session -/

namespace Finishing

variable [Scalar α] {program : Program α} {R : Session α → Session α → Prop}

theorem resolveOpen (h : Finishing program R) (resolvers : List (Resolver α))
    (p : OpenPlaceholder) : Leaves R (Session.resolveOpen program resolvers p) := by
  unfold Session.resolveOpen
  split
  · exact fun s s' b hrun => absurd hrun throw_ne_ok
  · next r _ =>
    refine h.bind ?_ fun port => h.resolve _ port
    cases r.source with
    | expression producer => exact h.lower producer
    | constant v => exact h.constPort v
    | port q => exact h.pure q

theorem resolveEach (h : Finishing program R) (resolvers : List (Resolver α))
    (waiting : List OpenPlaceholder) :
    Leaves R (Session.resolveEach program resolvers waiting) := by
  induction waiting with
  | nil => exact h.pure ()
  | cons p rest ih => exact h.bind (h.resolveOpen resolvers p) fun _ => ih

/-- **The end of a session** respects what resolving placeholders respects, and
leaves the fragment of the session. -/
theorem finish (h : Finishing program R) {s s' : Session α} {f : Fragment α}
    (hrun : Session.finish program s = .ok f s') : R s s' ∧ s'.fragment = f := by
  obtain ⟨hresolve, hfragment, -⟩ := finish_eq_ok hrun
  refine ⟨?_, hfragment⟩
  refine resolveWithin_induct (I := R s) ?_ (h.refl s) hresolve
  exact fun hs hround => h.trans hs (h.resolveEach _ _ _ _ _ hround)

/-- Signals are gathered before. -/
theorem gather (h : Finishing program R) {registry : Registry} {states : List State}
    {classes : List ExceptionClass} {t t' : Table State PortId}
    {u u' : Table ExceptionClass PortId} {s s₁ s₂ s' : Session α} {f : Fragment α}
    (hstates : Session.aggregateStates registry states t s = .ok t' s₁)
    (hclasses : Session.aggregateClasses registry classes u s₁ = .ok u' s₂)
    (hfinish : Session.finish program s₂ = .ok f s') : R s s' :=
  h.trans (h.trans (h.aggregateStates _ _ _ _ _ _ hstates)
    (h.aggregateClasses _ _ _ _ _ _ hclasses)) (h.finish hfinish).1

end Finishing

end Session

end SignalNet
