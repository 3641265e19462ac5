import SignalNet.Proofs.Compile.Descent
import SignalNet.Proofs.Compile.Discipline

/-!
# Failures that are not about loops

Lowering can fail for many reasons: a parameter is missing, a device is not
there, a port has the wrong kind.  None of them is about loops
(`CompileError.aboutLoops`): placeholders without a source, open inputs and
cycles are looked for when a session ends, and not before.

`Computing.Fails` says with which errors a computation may fail, and
`Session.lower_fails` is the result for expressions.  A rule may lead from one
expression to another; only where this comes back to where it began, lowering
does not end by itself (`Session.lower_fails_local`).
-/

namespace SignalNet

namespace Computing

variable {ε σ β γ : Type}

/-- A computation fails only with errors that have a property. -/
def Fails (P : ε → Prop) (x : EStateM ε σ β) : Prop :=
  ∀ s e s', x s = .error e s' → P e

variable {P : ε → Prop}

theorem Fails.mono {Q : ε → Prop} {x : EStateM ε σ β} (h : Fails P x) (hPQ : ∀ e, P e → Q e) :
    Fails Q x :=
  fun s e s' hrun => hPQ e (h s e s' hrun)

theorem fails_pure (b : β) : Fails P (pure b : EStateM ε σ β) := by
  intro s e s' h
  cases h

theorem fails_throw {e : ε} (he : P e) : Fails P (throw e : EStateM ε σ β) := by
  intro s e' s' h
  cases h
  exact he

theorem fails_bind {x : EStateM ε σ β} {f : β → EStateM ε σ γ} (hx : Fails P x)
    (hf : ∀ b, Fails P (f b)) : Fails P (x >>= f) := by
  intro s e s' h
  cases hfirst : x s with
  | ok b t =>
      rw [bind_of_ok hfirst] at h
      exact hf b t e s' h
  | error e' t =>
      rw [bind_of_error hfirst] at h
      cases h
      exact hx s _ _ hfirst

theorem fails_get : Fails P (get : EStateM ε σ σ) := by
  intro s e s' h
  cases h

theorem fails_modify (g : σ → σ) : Fails P (modify g : EStateM ε σ Unit) := by
  intro s e s' h
  cases h

end Computing

open Computing Lowering

variable {α β : Type}

/-! ### Calls on fragments -/

/-- An error of a network that is found while it grows. -/
abbrev NetError.Local (e : NetError) : Prop :=
  e.topic ≠ .topology

namespace Fragment

theorem block_local {f : Fragment α} {b : BlockId} {e : NetError} (h : f.block b = .error e) :
    e.Local := by
  unfold block at h
  split at h
  · cases h
  · cases h
    simp [NetError.topic]

theorem port_local {f : Fragment α} {q : PortId} {e : NetError} (h : f.port q = .error e) :
    e.Local := by
  unfold port at h
  split at h
  · cases h
  · cases h
    simp [NetError.topic]

theorem outputPort_local {f : Fragment α} {b : BlockId} {e : NetError}
    (h : f.outputPort b = .error e) : e.Local := by
  unfold outputPort at h
  split at h
  · next hblock =>
      cases h
      exact block_local hblock
  · split at h
    · cases h
    · cases h
      simp [NetError.topic]

theorem fails_ofExcept {x : Except NetError β} (hx : ∀ e, x = .error e → e.Local) :
    Fails NetError.Local (Wiring.ofExcept x : Wiring α β) := by
  cases x with
  | ok b => exact fails_pure b
  | error e => exact fails_throw (hx e rfl)

theorem addBlock_fails (primitive : Primitive α) (inputs : List Kind) (output : Option Kind) :
    Fails NetError.Local (addBlock primitive inputs output) := by
  intro f e g h
  unfold addBlock at h
  split at h
  · cases h
    simp [NetError.topic]
  · split at h
    · cases h
      simp [NetError.topic]
    · cases h

theorem connect_fails (source target : PortId) :
    Fails NetError.Local (connect source target : Wiring α Unit) := by
  intro f e g h
  unfold connect at h
  cases hs : f.port source with
  | error e' =>
      simp only [hs, EStateM.Result.error.injEq] at h
      exact h.1 ▸ port_local hs
  | ok s =>
      cases ht : f.port target with
      | error e' =>
          simp only [hs, ht, EStateM.Result.error.injEq] at h
          exact h.1 ▸ port_local ht
      | ok t =>
          simp only [hs, ht] at h
          split at h
          · cases h
            simp [NetError.topic]
          · split at h
            · cases h
              simp [NetError.topic]
            · split at h
              · cases h
                simp [NetError.topic]
              · cases h

theorem connectAll_fails (pairs : List (PortId × PortId)) :
    Fails NetError.Local (connectAll pairs : Wiring α Unit) := by
  induction pairs with
  | nil => exact fails_pure ()
  | cons pair rest ih => exact fails_bind (connect_fails _ _) fun _ => ih

theorem addSource_fails (primitive : Primitive α) (kind : Kind) :
    Fails NetError.Local (addSource primitive kind) :=
  fails_bind (addBlock_fails _ _ _) fun _ => fails_bind fails_get fun _ =>
    fails_ofExcept fun _ => outputPort_local

theorem mapM_kindOf_local {f : Fragment α} {ids : List PortId} {e : NetError}
    (h : ids.mapM f.kindOf = .error e) : e.Local := by
  induction ids with
  | nil => cases h
  | cons q rest ih =>
      rw [List.mapM_cons] at h
      cases hq : f.kindOf q with
      | error e' =>
          rw [hq] at h
          cases h
          exact Discipline.Lawful.kindOf_error hq
      | ok kind =>
          cases hrest : rest.mapM f.kindOf with
          | error e' =>
              rw [hq, hrest] at h
              cases h
              exact ih hrest
          | ok kinds =>
              rw [hq, hrest] at h
              cases h

theorem addWired_fails (primitive : Primitive α) (inputs : List PortId) (kind : Kind) :
    Fails NetError.Local (addWired primitive inputs kind) :=
  fails_bind fails_get fun _ => fails_bind (fails_ofExcept fun _ => mapM_kindOf_local) fun _ =>
    fails_bind (addBlock_fails _ _ _) fun _ => fails_bind fails_get fun _ =>
    fails_bind (fails_ofExcept fun _ => block_local) fun _ =>
    fails_bind (connectAll_fails _) fun _ => fails_bind fails_get fun _ =>
    fails_ofExcept fun _ => outputPort_local

theorem expose_fails (name : String) (q : PortId) :
    Fails NetError.Local (expose name q : Wiring α Unit) := by
  intro f e g h
  unfold expose at h
  cases hport : f.port q with
  | error e' =>
      simp only [hport, EStateM.Result.error.injEq] at h
      exact h.1 ▸ port_local hport
  | ok port =>
      simp only [hport] at h
      split at h
      · cases h
        simp [NetError.topic]
      · split at h
        · split at h
          · cases h
          · cases h
            simp [NetError.topic]
        · cases h

end Fragment

/-! ### Steps of a session -/

/-- An error that is not about loops. -/
abbrev CompileError.Harmless (e : CompileError α) : Prop :=
  e.aboutLoops = false

/-- A rule leads back to the expression that it lowers. -/
def CompileError.isCircular : CompileError α → Bool
  | .circular _ => true
  | _ => false

/-- An error that is found where one node is lowered. -/
abbrev CompileError.Local (e : CompileError α) : Prop :=
  e.Harmless ∧ e.isCircular = false

/-- No expression leads back to itself. -/
def Program.Straight (program : Program α) : Prop :=
  ∀ id, ¬ Relation.TransGen program.Leads id id

/-- By the rules of the library, expressions lead to those before them. -/
theorem Program.Straight.of_rules [Scalar α] {program : Program α} (hp : program.pool.WellFormed)
    (hrules : program.rules = .standard) : program.Straight := by
  have htrans : ∀ {id d}, Relation.TransGen program.Leads id d → d < id := by
    intro id d h
    induction h with
    | single h => exact h.lt hp hrules
    | tail _ h ih => exact Nat.lt_trans (h.lt hp hrules) ih
  exact fun id h => Nat.lt_irrefl id (htrans h)

namespace Session

theorem fails_wire {call : Wiring α β} (hcall : Fails NetError.Local call) :
    Fails CompileError.Local (wire call) := by
  intro s e s' h
  unfold wire at h
  split at h
  · cases h
  · next e' f hfailed =>
      cases h
      exact ⟨decide_eq_false (hcall _ _ _ hfailed), rfl⟩

theorem fails_ofNet {x : Except NetError β} (hx : ∀ e, x = .error e → e.Local) :
    Fails CompileError.Local (ofNet x : Lowering α β) := by
  cases x with
  | ok b => exact fails_pure b
  | error e => exact fails_throw ⟨decide_eq_false (hx e rfl), rfl⟩

theorem fails_ofExpr (x : Except (ExprError α) β) :
    Fails CompileError.Local (ofExpr x : Lowering α β) := by
  cases x with
  | ok b => exact fails_pure b
  | error e => exact fails_throw ⟨rfl, rfl⟩

theorem add_fails (primitive : Primitive α) (inputs : List PortId) (kind : Kind) :
    Fails CompileError.Local (add primitive inputs kind) := by
  unfold add
  split
  · exact fails_wire (Fragment.addSource_fails _ _)
  · exact fails_wire (Fragment.addWired_fails _ _ _)

theorem openPlaceholder_fails (pool : Pool α) (id : ExprId) :
    Fails CompileError.Local (openPlaceholder pool id) := by
  refine fails_bind (fails_ofExpr _) fun n => ?_
  split
  · exact fails_bind (fails_wire (Fragment.addBlock_fails _ _ _)) fun _ =>
      fails_bind fails_get fun _ => fails_bind (fails_ofNet fun _ => Fragment.block_local) fun _ =>
      fails_bind fails_get fun _ =>
      fails_bind (fails_ofNet fun _ => Fragment.outputPort_local) fun _ =>
      fails_bind (fails_modify _) fun _ => fails_pure _
  · exact fails_throw ⟨rfl, rfl⟩

variable [Scalar α]

theorem constPort_fails (v : Value α) : Fails CompileError.Local (constPort v) := by
  intro s e s' h
  obtain ⟨q, t, hrun⟩ := constPort_total v s
  rw [hrun] at h
  cases h

omit [Scalar α] in
theorem checkDevice_fails (host : Host α) (device : Option String) :
    Fails CompileError.Local (checkDevice host device) := by
  cases device with
  | none => exact fails_pure ()
  | some device =>
      rw [checkDevice]
      split
      · exact fails_pure ()
      · exact fails_throw ⟨rfl, rfl⟩

theorem lowerHop_fails (host : Host α) (hop : Hop α) :
    Fails CompileError.Local (lowerHop host hop) := by
  cases hop with
  | fixed pose => exact constPort_fails _
  | measured sensor device inverted =>
      refine fails_bind (checkDevice_fails _ _) fun _ =>
        fails_bind (add_fails _ _ _) fun measured => ?_
      split
      · exact add_fails _ _ _
      · exact fails_pure measured

theorem lowerHops_fails (host : Host α) (before : PortId) (hops : List (Hop α)) :
    Fails CompileError.Local (lowerHops host before hops) := by
  induction hops generalizing before with
  | nil => exact fails_pure before
  | cons hop rest ih =>
      exact fails_bind (lowerHop_fails _ _) fun _ => fails_bind (add_fails _ _ _) fun _ => ih _

theorem lowerRelation_fails (host : Host α) (source target : String) :
    Fails CompileError.Local (lowerRelation host source target) := by
  unfold lowerRelation
  split
  · exact fails_throw ⟨rfl, rfl⟩
  · exact constPort_fails _
  · exact fails_bind (lowerHop_fails _ _) fun _ => lowerHops_fails _ _ _

theorem lowerParameter_fails (parameters : Parameters α) (name : String) (kind : Kind) :
    Fails CompileError.Local (lowerParameter parameters name kind) := by
  unfold lowerParameter
  split
  · exact fails_throw ⟨rfl, rfl⟩
  · split
    · exact constPort_fails _
    · exact fails_throw ⟨rfl, rfl⟩

theorem lowerStandard_fails (program : Program α) (id : ExprId) (n : Node α)
    (inputs : List PortId) : Fails CompileError.Local (lowerStandard program id n inputs) := by
  unfold lowerStandard
  cases n.form with
  | constant v => exact constPort_fails v
  | parameter name => exact lowerParameter_fails _ _ _
  | sensor name device => exact fails_bind (checkDevice_fails _ _) fun _ => add_fails _ _ _
  | relation source target => exact lowerRelation_fails _ _ _
  | placeholder number label => exact openPlaceholder_fails _ _
  | persisted handle =>
      dsimp only
      split
      · exact fails_throw ⟨rfl, rfl⟩
      · exact add_fails _ _ _
  | custom c => exact fails_throw ⟨rfl, rfl⟩
  | _ => exact add_fails _ _ _

omit [Scalar α] in
theorem enter_fails (id : ExprId) (n : Node α) (key : String) (port : PortId) :
    Fails CompileError.Local (enter id n key port) := by
  refine fails_bind fails_get fun s => fails_bind
    (fails_ofNet fun _ => Discipline.Lawful.kindOf_error) fun kind => ?_
  split
  · exact fails_bind (fails_modify _) fun _ => fails_pure _
  · exact fails_throw ⟨rfl, rfl⟩

/-! ### Expressions -/

section Expressions

variable {P : CompileError α → Prop}

omit [Scalar α] in
theorem lowerEach_fails {lower : ExprId → Lowering α PortId} {ids : List ExprId}
    (hlower : ∀ id ∈ ids, Fails P (lower id)) : Fails P (lowerEach lower ids) := by
  induction ids with
  | nil => exact fails_pure []
  | cons id rest ih =>
      exact fails_bind (hlower id List.mem_cons_self) fun _ =>
        fails_bind (ih fun id hid => hlower id (List.mem_cons_of_mem _ hid)) fun _ => fails_pure _

/-- A rule fails where it stands, unless it leads to another expression. -/
theorem applyRule_fails (hlocal : ∀ e, CompileError.Local e → P e) (program : Program α)
    {lower : ExprId → Lowering α PortId} {rule : Rule α}
    (hlower : ∀ other, rule = .expression other → Fails P (lower other)) (id : ExprId) (n : Node α)
    (inputs : List PortId) : Fails P (applyRule program lower rule id n inputs) := by
  unfold applyRule
  cases rule with
  | standard => exact (lowerStandard_fails _ _ _ _).mono hlocal
  | block primitive kind => exact (add_fails _ _ _).mono hlocal
  | constant v => exact (constPort_fails v).mono hlocal
  | operand position =>
      dsimp only
      split
      · exact fails_pure _
      · exact fails_throw (hlocal _ ⟨rfl, rfl⟩)
  | expression other => exact hlower other rfl
  | placeholder => exact (openPlaceholder_fails _ _).mono hlocal
  | custom => exact (add_fails _ _ _).mono hlocal
  | refuse reason => exact fails_throw (hlocal _ ⟨rfl, rfl⟩)

/-- A node fails where it stands, or where it leads. -/
theorem lowerWithin_fails (hlocal : ∀ e, CompileError.Local e → P e) {program : Program α}
    {fuel : Nat} {id : ExprId}
    (hleads : ∀ d, program.Leads id d → Fails P (lowerWithin program fuel d)) :
    Fails P (lowerWithin program (fuel + 1) id) := by
  refine fails_bind fails_get fun s => ?_
  split
  · exact fails_pure _
  · intro t e t' hrun
    rcases bind_eq_error.mp hrun with hnode | ⟨n, t₁, hnode, hafter⟩
    · exact hlocal _ (fails_ofExpr _ _ _ _ hnode)
    obtain ⟨hn, rfl⟩ := ofExpr_eq_ok.mp hnode
    rw [Pool.node_eq_ok] at hn
    refine fails_bind (lowerEach_fails fun d hd => hleads d ⟨n, hn, Or.inl hd⟩) (fun inputs => ?_)
      _ _ _ hafter
    split
    · exact fails_throw (hlocal _ ⟨rfl, rfl⟩)
    · next key rule hfind =>
        refine fails_bind (applyRule_fails hlocal _ ?_ _ _ _) fun _ =>
          (enter_fails _ _ _ _).mono hlocal
        rintro other rfl
        exact hleads other ⟨n, hn, Or.inr ⟨key, hfind⟩⟩

end Expressions

/-- **Lowering an expression** fails for no reason that is about loops, whatever
the rules are. -/
theorem lower_fails (program : Program α) (id : ExprId) :
    Fails CompileError.Harmless (lower program id) := by
  have hwithin : ∀ fuel id, Fails CompileError.Harmless (lowerWithin program fuel id) := by
    intro fuel
    induction fuel with
    | zero => exact fun id => fails_throw rfl
    | succ fuel ih =>
        exact fun id => lowerWithin_fails (fun _ he => he.1) fun d _ => ih d
  exact hwithin _ id

theorem sourcePort_fails (program : Program α) (source : Source α) :
    Fails CompileError.Harmless (sourcePort program source) := by
  cases source with
  | expression producer => exact lower_fails program producer
  | constant v => exact (constPort_fails v).mono fun _ he => he.1
  | port id => exact fails_pure id

theorem storePersisted_fails (program : Program α) (handle : Nat) :
    Fails CompileError.Harmless (storePersisted program handle) := by
  have hlocal : ∀ {β : Type} {x : Lowering α β}, Fails CompileError.Local x →
      Fails CompileError.Harmless x := fun hx => hx.mono fun _ he => he.1
  unfold storePersisted
  split
  · exact fails_throw rfl
  · exact fails_bind (hlocal (fails_ofExpr _)) fun _ => fails_bind (lower_fails program _) fun _ =>
      fails_bind fails_get fun _ =>
      fails_bind (hlocal (fails_ofNet fun _ => Discipline.Lawful.kindOf_error)) fun _ =>
      fails_bind (hlocal (fails_wire (Fragment.addBlock_fails _ _ _))) fun _ =>
      fails_bind fails_get fun _ =>
      fails_bind (hlocal (fails_ofNet fun _ => Fragment.block_local)) fun _ =>
      hlocal (fails_wire (Fragment.connect_fails _ _))

end Session

end SignalNet
