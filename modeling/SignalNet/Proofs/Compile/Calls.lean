import SignalNet.Proofs.Compile.Representation
import SignalNet.Proofs.Compile.Traversal

/-!
# Sessions made by calls

A session can be used in any way its calls permit: expressions are lowered in
any order, blocks are added and wired by hand, placeholders are opened and
resolved, and calls may fail half-way.  `Session.Call` lists the calls, and
`Session.performAll` makes them one after the other.

Whatever is called, the ports of expressions that are lowered the library's way
stay what they are (`Session.performAll_preserves`).  By other rules, too, an
expression keeps its port (`Session.Traced.retains`): it is entered only where
it was missing.  What the compiler does is made of such calls:
`Session.closed_traced` says so for actions and commands, and
`Session.finish_traced` for the end of a session.
-/

namespace SignalNet

open Computing

namespace Session

open Lowering

variable {α : Type} [Scalar α]

/-! ### Calls -/

omit [Scalar α] in
/-- The calls on a session. -/
inductive Call (α : Type)
  | lower (id : ExprId)
  | constPort (v : Value α)
  | openPlaceholder (id : ExprId)
  | resolve (number : Nat) (port : PortId)
  | addResolver (r : Resolver α)
  /-- A call on the fragment. -/
  | wire (c : Fragment.Call α)

/-- Make a call and forget its result. -/
def Call.run (program : Program α) : Call α → Lowering α Unit
  | lower id => discard (Session.lower program id)
  | constPort v => discard (Session.constPort v)
  | openPlaceholder id => discard (Session.openPlaceholder program.pool id)
  | resolve number port => Session.resolve number port
  | addResolver r => Session.addResolver r
  | wire c => Lowering.wire c.run

/-- The session after a sequence of calls, successful or not. -/
def performAll (program : Program α) (calls : List (Call α)) (s : Session α) : Session α :=
  calls.foldl (fun s c => finalState (c.run program s)) s

theorem performAll_append (program : Program α) (first second : List (Call α)) (s : Session α) :
    performAll program (first ++ second) s =
      performAll program second (performAll program first s) :=
  List.foldl_append

/-! ### What calls preserve -/

/-- What a session keeps account of: the expressions of `P` that have been
entered, and the constants. -/
structure Truthful (program : Program α) (P : ExprId → Prop) (s : Session α) : Prop
    extends Depicts program P s where
  constants : ∀ {c : Value α} {q : PortId}, s.constants.get? c = some q →
    ∃ v, v.canonical = c ∧ s.fragment.Makes q (.constant v) [] v.kind

variable {program : Program α} {P : ExprId → Prop} {s s' : Session α}

theorem truthful_empty : Truthful program P (empty : Session α) where
  wellFormed := Fragment.wellFormed_empty
  entries _ h := by simp [empty, Table.get?] at h
  constants h := by simp [empty, Table.get?] at h

/-- What a larger session has to account for. -/
theorem Truthful.grow (h : Truthful program P s) (hs : s.Upholds P s')
    (hwell : s'.fragment.WellFormed)
    (hentries : ∀ {id : ExprId} {q : PortId}, P id → s'.lowered.get? id = some q →
      s.lowered.get? id = some q ∨ ∃ n, program.pool.get? id = some n ∧
        Represents program s' n q ∧ ∀ d ∈ n.dependencies, P d)
    (hconstants : ∀ {c : Value α} {q : PortId}, s'.constants.get? c = some q →
      s.constants.get? c = some q ∨
        ∃ v, v.canonical = c ∧ s'.fragment.Makes q (.constant v) [] v.kind) :
    Truthful program P s' where
  wellFormed := hwell
  entries := by
    intro id q hid hq
    rcases hentries hid hq with hold | hnew
    · obtain ⟨n, hn, hrepresents, hoperands⟩ := h.entries hid hold
      exact ⟨n, hn, hrepresents.uphold hs hoperands, hoperands⟩
    · exact hnew
  constants := by
    intro c q hq
    rcases hconstants hq with hold | hnew
    · obtain ⟨v, hv, hmakes⟩ := h.constants hold
      exact ⟨v, hv, hmakes.extend hs.fragment⟩
    · exact hnew

/-- A step keeps a session truthful, and the ports of `P`. -/
def Preserves (program : Program α) (P : ExprId → Prop) (s s' : Session α) : Prop :=
  Truthful program P s → Truthful program P s' ∧ s.Upholds P s'

theorem Preserves.refl (s : Session α) : Preserves program P s s :=
  fun h => ⟨h, Upholds.refl P s⟩

theorem Preserves.trans {s₁ s₂ s₃ : Session α} (h₁ : Preserves program P s₁ s₂)
    (h₂ : Preserves program P s₂ s₃) : Preserves program P s₁ s₃ := by
  intro h
  obtain ⟨hs₂, hupholds₂⟩ := h₁ h
  obtain ⟨hs₃, hupholds₃⟩ := h₂ hs₂
  exact ⟨hs₃, hupholds₂.trans hupholds₃⟩

theorem preserves_withFragment {f : Fragment α} (hextends : s.fragment.Extends f)
    (hwell : s.fragment.WellFormed → f.WellFormed) :
    Preserves program P s { s with fragment := f } := by
  intro h
  have hs : s.Upholds P { s with fragment := f } := ⟨hextends, fun _ hq => hq, fun hq => hq⟩
  exact ⟨h.grow hs (hwell h.wellFormed) (fun _ hq => Or.inl hq) fun hq => Or.inl hq, hs⟩

theorem preserves_wire {β : Type} {call : Wiring α β} (hcall : Fragment.Maintains call) :
    Keeps (Preserves program P) (Lowering.wire call) := by
  intro s
  obtain ⟨hextends, hwell⟩ := hcall s.fragment
  unfold Lowering.wire
  cases hrun : call s.fragment with
  | ok b f =>
      rw [hrun] at hextends hwell
      exact preserves_withFragment hextends hwell
  | error e f =>
      rw [hrun] at hextends hwell
      exact preserves_withFragment hextends hwell

theorem preserves_constPort (v : Value α) :
    Keeps (Preserves program P) (Session.constPort v) := by
  intro s h
  obtain ⟨q, s', hrun⟩ := constPort_total v s
  rw [hrun]
  rcases constPort_cases h.wellFormed hrun with ⟨-, rfl⟩ | ⟨hnone, f, hadded, rfl⟩
  · exact Preserves.refl _ h
  · have hs : s.Upholds P { s with fragment := f, constants := s.constants.insert v.canonical q } :=
      have hextends := constPort_extends h.wellFormed hrun
      ⟨hextends.fragment, fun _ hq => hq, hextends.constants⟩
    refine ⟨h.grow hs hadded.valid (fun _ hq => Or.inl hq) ?_, hs⟩
    intro c r hr
    rcases Table.get?_insert_cases hr with ⟨rfl, rfl⟩ | hold
    · exact Or.inr ⟨v, rfl, hadded.makes⟩
    · exact Or.inl hold

theorem preserves_steady (program : Program α) (P : ExprId → Prop) :
    Steady (Preserves program P) where
  refl := Preserves.refl
  trans _ _ _ h₁ h₂ := h₁.trans h₂
  wire hcall _ := preserves_wire hcall
  constPort := preserves_constPort
  books s placeholders resolvers h := by
    have hs : s.Upholds P { s with placeholders, resolvers } :=
      ⟨Fragment.Extends.refl _, fun _ hq => hq, fun hq => hq⟩
    exact ⟨h.grow hs h.wellFormed (fun _ hq => Or.inl hq) fun hq => Or.inl hq, hs⟩

/-! ### Expressions -/

/-- Entering an expression outside `P` changes nothing for `P`. -/
theorem preserves_entered {id : ExprId} (hid : ¬ P id) (q : PortId) :
    Preserves program P s (s.entered id q) := by
  intro h
  have hsame : ∀ {j : ExprId}, P j → (s.entered id q).lowered.get? j = s.lowered.get? j := by
    intro j hj
    have hne : j ≠ id := by
      rintro rfl
      exact hid hj
    exact Table.get?_insert_of_ne _ _ hne
  have hs : s.Upholds P (s.entered id q) :=
    ⟨Fragment.Extends.refl _, fun hj hq => (hsame hj).trans hq, fun hq => hq⟩
  refine ⟨h.grow hs h.wellFormed ?_ fun hq => Or.inl hq, hs⟩
  intro j r hj hr
  exact Or.inl ((hsame hj).symm.trans hr)

/-- Well-formed fragments stay so, whatever constants there are. -/
theorem wellFormed_supports :
    Supports (fun s : Session α => s.fragment.WellFormed) fun _ => True where
  wellFormed h := h
  add h hrun := by
    obtain ⟨f, kinds, hadded, rfl⟩ := add_added h hrun
    exact hadded.valid
  constPort _ h hrun := by
    rcases constPort_cases h hrun with ⟨-, rfl⟩ | ⟨-, f, hadded, rfl⟩
    · exact h
    · exact hadded.valid

/-- **The step of lowering** for an expression of `P`. -/
theorem LoweredBy.preserves (hP : SelfContained program P) {id : ExprId} {n : Node α}
    {inputs : List PortId} {q : PortId} (hid : P id) (hn : program.pool.get? id = some n)
    (hfresh : s.lowered.get? id = none)
    (hinputs : List.Forall₂ (fun d q => s.lowered.get? d = some q) n.dependencies inputs)
    (hby : LoweredBy program id n inputs s q s') :
    Preserves program P s (s'.entered id q) := by
  intro h
  have hsteady := preserves_steady program P
  have hlowered := hby.lowered
  -- What remains in each case is that the session grows and represents the node.
  suffices hmain : Preserves program P s s' ∧ Represents program s' n q by
    obtain ⟨hpreserves, hrepresents⟩ := hmain
    obtain ⟨h', hupholds⟩ := hpreserves h
    have hextends : s'.Extends (s'.entered id q) :=
      extends_entered (by rw [hlowered]; exact hfresh)
    have hentered : s'.Upholds P (s'.entered id q) :=
      ⟨hextends.fragment, fun _ => hextends.lowered, hextends.constants⟩
    refine ⟨h'.grow hentered h'.wellFormed ?_ fun hq => Or.inl hq, hupholds.trans hentered⟩
    intro j r _ hr
    rcases Table.get?_insert_cases hr with ⟨rfl, rfl⟩ | hold
    · exact Or.inr ⟨n, hn, hrepresents.extend hextends, hP.closed hid hn⟩
    · exact Or.inl hold
  have hkeeps : ∀ {x : Lowering α PortId}, Keeps (Preserves program P) x → x s = .ok q s' →
      Preserves program P s s' := by
    intro x hx hrun
    have hs := hx s
    rw [hrun] at hs
    exact hs
  cases hby with
  | constant hform hrun =>
      exact ⟨hkeeps (hsteady.constPort _) hrun,
        .constant hform (constPort_entered h.wellFormed hrun)⟩
  | parameter hform hvalue _ hrun =>
      exact ⟨hkeeps (hsteady.constPort _) hrun,
        .parameter hform hvalue (constPort_entered h.wellFormed hrun)⟩
  | relation hform hrun =>
      obtain ⟨-, -, path, hpath, hmotion⟩ := wellFormed_supports.lowerRelation h.wellFormed
        (fun _ => trivial) (fun _ _ _ _ => trivial) hrun
      exact ⟨hkeeps (hsteady.laying.lowerRelation _ _ _) hrun, .relation hform hpath hmotion⟩
  | placeholder hform hrun =>
      have hplain := hP.plain hid hn
      rw [hform] at hplain
      cases hplain
  | block hform hrun =>
      obtain ⟨f, kinds, hadded, rfl⟩ := add_added h.wellFormed hrun
      exact ⟨hkeeps (hsteady.laying.add _ _ _) hrun, .block hform hadded.produces hinputs⟩

/-- Lowering an expression of `P` that succeeds. -/
theorem lowerWithin_upholds (hp : program.pool.WellFormed) (hrules : program.Standard P)
    (hP : SelfContained program P) (h : Truthful program P s) {fuel : Nat} {id : ExprId}
    (hid : P id) {q : PortId} (hrun : lowerWithin program fuel id s = .ok q s') :
    (Truthful program P s' ∧ s.Upholds P s') ∧ s'.lowered.get? id = some q := by
  have hout : Outcome (fun t => Truthful program P t ∧ s.Upholds P t) id s q s' := by
    refine lowerWithin_induct hp hrules hP.closed ?_ hid ⟨h, Upholds.refl P s⟩ hrun
    rintro j n inputs s₁ s₂ r hj hn hfresh ⟨hs₁, hupholds₁⟩ hinputs hby -
    obtain ⟨hs₂, hupholds₂⟩ := hby.preserves hP hj hn hfresh hinputs hs₁
    exact ⟨hs₂, hupholds₁.trans hupholds₂⟩
  exact ⟨hout.holds, hout.entry⟩

omit [Scalar α] in
/-- An expression that cannot be entered leaves the session as it is. -/
theorem enter_eq_error {id : ExprId} {n : Node α} {key : String} {port : PortId}
    {e : CompileError α} (h : enter id n key port s = .error e s') : s' = s := by
  rcases bind_eq_error.mp h with hget | ⟨_, _, hget, hafter⟩
  · cases hget
  obtain ⟨rfl, rfl⟩ := get_eq_ok.mp hget
  rcases bind_eq_error.mp hafter with hlookup | ⟨produced, _, hlookup, hafter⟩
  · cases hkind : s.fragment.kindOf port <;> simp only [hkind] at hlookup <;> cases hlookup
    rfl
  obtain ⟨-, rfl⟩ := ofNet_eq_ok.mp hlookup
  split at hafter
  · cases hafter
  · cases hafter
    rfl

/-- The port of a node, before it is entered for its expression, with the key
of the rule that it comes from. -/
def portOf (program : Program α) (fuel : Nat) (id : ExprId) (n : Node α) :
    Lowering α (String × PortId) := do
  let inputs ← lowerEach (lowerWithin program fuel) n.dependencies
  match Rules.lookup? program.rules n.form.keys with
  | none => throw (.unmappable n.form.typeName n.form.keys)
  | some (key, rule) =>
    return (key, ← applyRule program (lowerWithin program fuel) rule id n inputs)

theorem lowerWithin_succ (program : Program α) (fuel : Nat) (id : ExprId) (s : Session α) :
    lowerWithin program (fuel + 1) id s = match s.lowered.get? id with
      | some port => .ok port s
      | none => (do
          let n ← ofExpr (program.pool.node id)
          let found ← portOf program fuel id n
          enter id n found.1 found.2) s := by
  rw [lowerWithin, get_bind]
  cases s.lowered.get? id with
  | some port => rfl
  | none =>
      have hnode : ∀ n : Node α, (do
            let inputs ← lowerEach (lowerWithin program fuel) n.dependencies
            match Rules.lookup? program.rules n.form.keys with
            | none => throw (.unmappable n.form.typeName n.form.keys)
            | some (key, rule) =>
              let port ← applyRule program (lowerWithin program fuel) rule id n inputs
              enter id n key port) =
          (portOf program fuel id n >>= fun found => enter id n found.1 found.2) := by
        intro n
        unfold portOf
        rw [bind_assoc]
        cases Rules.lookup? program.rules n.form.keys with
        | none => rfl
        | some found => simp only [bind_assoc, pure_bind]
      exact congrFun (congrArg (ofExpr (program.pool.node id) >>= ·) (funext hnode)) s

/-- Whatever the rule of a node is, it adds blocks and constants, lowers other
expressions or opens a placeholder. -/
theorem Laying.portOf {R : Session α → Session α → Prop} (hlaying : Laying R) {fuel : Nat}
    (hlower : ∀ id, Keeps R (lowerWithin program fuel id)) {id : ExprId}
    (hopen : Keeps R (Session.openPlaceholder program.pool id)) (n : Node α) :
    Keeps R (Session.portOf program fuel id n) := by
  have heach : ∀ ids, Keeps R (lowerEach (lowerWithin program fuel) ids) := by
    intro ids
    induction ids with
    | nil => exact hlaying.pure _
    | cons d rest ih =>
        exact hlaying.bind (hlower d) fun _ => hlaying.bind ih fun _ => hlaying.pure _
  refine hlaying.bind (heach _) fun inputs => ?_
  split
  · exact hlaying.throw _
  · next key rule _ =>
    refine hlaying.bind ?_ fun _ => hlaying.pure _
    unfold applyRule
    cases rule with
    | standard => exact hlaying.lowerStandard program hopen n inputs
    | block primitive kind => exact hlaying.add _ _ _
    | constant v => exact hlaying.constPort v
    | operand position =>
        dsimp only
        split
        · exact hlaying.pure _
        · exact hlaying.throw _
    | expression other => exact hlower other
    | placeholder => exact hopen
    | custom => exact hlaying.add _ _ _
    | refuse reason => exact hlaying.throw _

theorem Steady.portOf {R : Session α → Session α → Prop} (hsteady : Steady R) {fuel : Nat}
    (h : ∀ id, Keeps R (lowerWithin program fuel id)) (id : ExprId) (n : Node α) :
    Keeps R (portOf program fuel id n) :=
  hsteady.laying.portOf h (hsteady.openPlaceholder program.pool id) n

/-- Lowering any expression by any rules respects what the steps respect, if it
does not matter which expressions have been entered. -/
theorem Steady.lowerWithin {R : Session α → Session α → Prop} (hsteady : Steady R)
    (henter : ∀ (s : Session α) (id : ExprId) (q : PortId), R s (s.entered id q)) (fuel : Nat)
    (id : ExprId) : Keeps R (lowerWithin program fuel id) := by
  induction fuel generalizing id with
  | zero => exact hsteady.laying.throw _
  | succ fuel ih =>
      have hentered : ∀ n key port, Keeps R (enter id n key port) := by
        intro n key port s
        cases hrun : enter id n key port s with
        | ok q s' =>
            obtain ⟨-, -, rfl⟩ := enter_eq_ok hrun
            exact henter s id port
        | error e s' =>
            obtain rfl := enter_eq_error hrun
            exact hsteady.refl _
      intro s
      rw [lowerWithin_succ]
      cases s.lowered.get? id with
      | some port => exact hsteady.refl s
      | none =>
          exact hsteady.bind (hsteady.laying.ofExpr _) (fun n =>
            hsteady.bind (hsteady.portOf ih id n) fun found => hentered n found.1 found.2) s

theorem Steady.resolve {R : Session α → Session α → Prop} (hsteady : Steady R) (number : Nat)
    (port : PortId) : Keeps R (Session.resolve number port : Lowering α Unit) := by
  apply keeps_get_bind
  intro s
  cases s.placeholders.find? fun p => decide (p.number = number) with
  | none => exact hsteady.laying.throw _ s
  | some p =>
      by_cases hresolved : p.resolved = true
      · simp only [hresolved]
        exact hsteady.laying.throw _ s
      · simp only [hresolved]
        have hconnect := hsteady.wire (Fragment.maintains_connect port p.input)
          (Fragment.silent_connect _ _)
        refine hsteady.bind ?_ (fun _ => hconnect) s
        exact fun s => hsteady.books s _ s.resolvers

/-- **Lowering any expression** by any rules preserves what is said about the
expressions of `P`, also where it stops. -/
theorem preserves_lowerWithin (hp : program.pool.WellFormed) (hrules : program.Standard P)
    (hP : SelfContained program P) (fuel : Nat) (id : ExprId) :
    Keeps (Preserves program P) (lowerWithin program fuel id) := by
  have hsteady := preserves_steady program P
  induction fuel generalizing id with
  | zero => exact hsteady.laying.throw _
  | succ fuel ih =>
      intro s h
      -- The session before the expression is entered.
      have hport : ∀ {n : Node α} {found : String × PortId} {s₁ : Session α},
          portOf program fuel id n s = .ok found s₁ → Preserves program P s s₁ := by
        intro n found s₁ hrun
        have hs := hsteady.portOf ih id n s
        rw [hrun] at hs
        exact hs
      cases hrun : lowerWithin program (fuel + 1) id s with
      | ok q s' =>
          by_cases hid : P id
          · exact (lowerWithin_upholds hp hrules hP h hid hrun).1
          rw [lowerWithin_succ] at hrun
          cases hfind : s.lowered.get? id with
          | some port =>
              simp only [hfind] at hrun
              cases hrun
              exact Preserves.refl _ h
          | none =>
              simp only [hfind] at hrun
              obtain ⟨n, _, hlookup, hafter⟩ := bind_eq_ok.mp hrun
              obtain ⟨-, rfl⟩ := ofExpr_eq_ok.mp hlookup
              obtain ⟨found, s₁, hfound, hafter⟩ := bind_eq_ok.mp hafter
              obtain ⟨-, -, rfl⟩ := enter_eq_ok hafter
              exact (hport hfound).trans (preserves_entered hid _) h
      | error e s' =>
          rw [lowerWithin_succ] at hrun
          cases hfind : s.lowered.get? id with
          | some port =>
              simp only [hfind] at hrun
              cases hrun
          | none =>
              simp only [hfind] at hrun
              rcases bind_eq_error.mp hrun with hlookup | ⟨n, _, hlookup, hafter⟩
              · have hs := hsteady.laying.ofExpr (program.pool.node id) s
                rw [hlookup] at hs
                exact hs h
              obtain ⟨-, rfl⟩ := ofExpr_eq_ok.mp hlookup
              rcases bind_eq_error.mp hafter with hfound | ⟨found, s₁, hfound, hafter⟩
              · have hs := hsteady.portOf ih id n s
                rw [hfound] at hs
                exact hs h
              · obtain rfl := enter_eq_error hafter
                exact hport hfound h

/-! ### All calls -/

theorem Call.run_preserves (hp : program.pool.WellFormed) (hrules : program.Standard P)
    (hP : SelfContained program P) (c : Call α) :
    Keeps (Preserves program P) (c.run program) := by
  have hsteady := preserves_steady program P
  have hdiscard : ∀ {β : Type} {x : Lowering α β}, Keeps (Preserves program P) x →
      Keeps (Preserves program P) (discard x) :=
    fun hx => hsteady.bind hx fun _ => hsteady.laying.pure _
  cases c with
  | lower id => exact hdiscard (preserves_lowerWithin hp hrules hP _ id)
  | constPort v => exact hdiscard (hsteady.constPort v)
  | openPlaceholder id => exact hdiscard (hsteady.openPlaceholder _ id)
  | resolve number port => exact hsteady.resolve number port
  | addResolver r => exact fun s => hsteady.books s s.placeholders _
  | wire c => exact preserves_wire c.run_maintains

/-- **Whatever is called**, the ports of the expressions of `P` stay what they
are. -/
theorem performAll_preserves (hp : program.pool.WellFormed) (hrules : program.Standard P)
    (hP : SelfContained program P) (calls : List (Call α)) (s : Session α) :
    Preserves program P s (performAll program calls s) := by
  induction calls generalizing s with
  | nil => exact Preserves.refl s
  | cons c rest ih => exact (c.run_preserves hp hrules hP s).trans (ih _)

/-! ### The ports of expressions -/

omit [Scalar α] in
/-- An expression keeps a port. -/
def RetainsAt (id : ExprId) (q : PortId) (s s' : Session α) : Prop :=
  s.lowered.get? id = some q → s'.lowered.get? id = some q

omit [Scalar α] in
/-- Expressions keep their ports. -/
def Retains (s s' : Session α) : Prop :=
  ∀ id q, RetainsAt id q s s'

omit [Scalar α] in
theorem retains_of_lowered (h : s'.lowered = s.lowered) : s.Retains s' := by
  intro id q hq
  rw [h, hq]

theorem retains_steady : Steady (Retains (α := α)) where
  refl _ _ _ hq := hq
  trans _ _ _ h₁ h₂ id q hq := h₂ id q (h₁ id q hq)
  wire hmaintains hsilent s := retains_of_lowered (sameEntries_steady.wire hmaintains hsilent s)
  constPort v s := retains_of_lowered (sameEntries_steady.constPort v s)
  books _ _ _ _ _ hq := hq

omit [Scalar α] in
/-- Entering an expression leaves the others alone. -/
theorem enter_retains_others {id j : ExprId} (hne : j ≠ id) {r : PortId}
    (hj : s.lowered.get? j = some r) (n : Node α) (key : String) (port : PortId) :
    (finalState (enter id n key port s)).lowered.get? j = some r := by
  cases hrun : enter id n key port s with
  | ok q s' =>
      obtain ⟨-, -, rfl⟩ := enter_eq_ok hrun
      exact (Table.get?_insert_of_ne _ _ hne).trans hj
  | error e s' =>
      obtain rfl := enter_eq_error hrun
      exact hj

/-- **Lowering keeps the ports of expressions**, by whatever rules. -/
theorem retains_lowerWithin (fuel : Nat) (id : ExprId) :
    Keeps Retains (lowerWithin program fuel id) := by
  induction fuel generalizing id with
  | zero => exact retains_steady.laying.throw _
  | succ fuel ih =>
      intro s j r hr
      rw [lowerWithin_succ]
      cases hfresh : s.lowered.get? id with
      | some port => exact hr
      | none =>
          have hne : j ≠ id := by
            rintro rfl
            rw [hfresh] at hr
            cases hr
          have hkeeps : Keeps (RetainsAt j r) (do
              let n ← ofExpr (program.pool.node id)
              let found ← portOf program fuel id n
              enter id n found.1 found.2) := by
            have htrans : ∀ a b c : Session α,
                RetainsAt j r a b → RetainsAt j r b c → RetainsAt j r a c :=
              fun _ _ _ h₁ h₂ ht => h₂ (h₁ ht)
            refine keeps_bind htrans (fun t => retains_steady.laying.ofExpr _ t j r) fun n => ?_
            refine keeps_bind htrans (fun t => retains_steady.portOf ih id n t j r) fun found => ?_
            exact fun t ht => enter_retains_others hne ht n found.1 found.2
          exact hkeeps s hr

/-- What has been lowered is entered. -/
theorem lower_entered {id : ExprId} {q : PortId} (hrun : lower program id s = .ok q s') :
    s'.lowered.get? id = some q := by
  unfold lower at hrun
  rw [lowerWithin_succ] at hrun
  cases hfind : s.lowered.get? id with
  | some port =>
      simp only [hfind] at hrun
      cases hrun
      exact hfind
  | none =>
      simp only [hfind] at hrun
      obtain ⟨n, s₁, -, hafter⟩ := bind_eq_ok.mp hrun
      obtain ⟨found, s₂, -, hafter⟩ := bind_eq_ok.mp hafter
      obtain ⟨rfl, -, rfl⟩ := enter_eq_ok hafter
      exact Table.get?_insert_self _ _ _

theorem Call.run_retains (c : Call α) : Keeps Retains (c.run program) := by
  have hdiscard : ∀ {β : Type} {x : Lowering α β}, Keeps Retains x → Keeps Retains (discard x) :=
    fun hx => retains_steady.bind hx fun _ => retains_steady.laying.pure _
  cases c with
  | lower id => exact hdiscard (retains_lowerWithin _ id)
  | constPort v => exact hdiscard (retains_steady.constPort v)
  | openPlaceholder id => exact hdiscard (retains_steady.openPlaceholder _ id)
  | resolve number port => exact retains_steady.resolve number port
  | addResolver r => exact fun s => retains_steady.books s s.placeholders _
  | wire c =>
      intro s
      show s.Retains (finalState (Lowering.wire c.run s))
      unfold Lowering.wire
      cases c.run s.fragment <;> exact fun _ _ hq => hq

/-! ### What the compiler calls -/

/-- Calls lead from one session to another. -/
def Traced (program : Program α) (s s' : Session α) : Prop :=
  ∃ calls, performAll program calls s = s'

theorem Traced.trans {s₁ s₂ s₃ : Session α} (h₁ : Traced program s₁ s₂)
    (h₂ : Traced program s₂ s₃) : Traced program s₁ s₃ := by
  obtain ⟨first, rfl⟩ := h₁
  obtain ⟨second, rfl⟩ := h₂
  exact ⟨first ++ second, performAll_append program first second s₁⟩

theorem Traced.preserves (hp : program.pool.WellFormed) (hrules : program.Standard P)
    (hP : SelfContained program P) (h : Traced program s s') : Preserves program P s s' := by
  obtain ⟨calls, rfl⟩ := h
  exact performAll_preserves hp hrules hP calls s

/-- **Calls keep the ports of expressions.** -/
theorem Traced.retains (h : Traced program s s') : s.Retains s' := by
  obtain ⟨calls, rfl⟩ := h
  induction calls generalizing s with
  | nil => exact retains_steady.refl s
  | cons c rest ih => exact retains_steady.trans _ _ _ (c.run_retains s) ih

/-- A call that succeeds is a trace. -/
theorem traced_call (c : Call α) {u : Unit} (hrun : c.run program s = .ok u s') :
    Traced program s s' := by
  refine ⟨[c], ?_⟩
  show finalState (c.run program s) = s'
  rw [hrun]
  rfl

omit [Scalar α] in
theorem discard_eq_ok {β : Type} {x : Lowering α β} {b : β} (hrun : x s = .ok b s') :
    discard x s = .ok () s' :=
  bind_of_ok hrun

theorem traced_wire {β : Type} {call : Wiring α β} (c : Fragment.Call α) {b : β} {f : Fragment α}
    (hcall : call s.fragment = .ok b f) (hc : c.run = discard call) :
    Traced program s { s with fragment := f } := by
  refine traced_call (.wire c) (u := ()) ?_
  have hdiscard : c.run s.fragment = .ok () f := by
    rw [hc]
    exact bind_of_ok hcall
  exact wire_eq_ok.mpr ⟨f, hdiscard, rfl⟩

/-- **What is lowered is lowered by calls**: the steps that actions, commands
and requests are made of are calls. -/
theorem closed_traced (program : Program α) (targets : List ExprId) :
    Closed program targets (Traced program) where
  refl s := ⟨[], rfl⟩
  trans h₁ h₂ := h₁.trans h₂
  add := by
    intro primitive inputs kind s s' q hrun
    unfold Session.add at hrun
    split at hrun
    · obtain ⟨f, hcall, rfl⟩ := wire_eq_ok.mp hrun
      exact traced_wire (.addSource primitive kind) hcall rfl
    · obtain ⟨f, hcall, rfl⟩ := wire_eq_ok.mp hrun
      exact traced_wire (.addWired primitive inputs kind) hcall rfl
  constPort v s s' q hrun := traced_call (.constPort v) (discard_eq_ok hrun)
  lower id s s' q hrun := traced_call (.lower id) (discard_eq_ok hrun)
  addResolver r _ s s' u hrun := traced_call (.addResolver r) hrun
  milestone _ port s s' u hrun := traced_call (.wire (.register _ port)) hrun
  expose name port s s' u hrun := traced_call (.wire (.expose name port)) hrun
  storePersisted := by
    intro handle s s' u hrun
    obtain ⟨slot, source, value, s₁, kind, -, hlower, hfits, hports, hfree, rfl⟩ :=
      storePersisted_eq_ok hrun
    have hadd : Fragment.addBlock (.store slot) [kind] none s₁.fragment =
        .ok s₁.fragment.blocks.length (s₁.fragment.withBlock (.store slot) [kind] none) :=
      Fragment.addBlock_eq_ok.mpr ⟨hfits, rfl, rfl⟩
    have hconnect : Fragment.connect value s₁.fragment.ports.length
        (s₁.fragment.withBlock (.store slot) [kind] none) = .ok () _ :=
      Fragment.connect_eq_ok.mpr ⟨hports, hfree, rfl⟩
    exact ((traced_call (.lower source) (discard_eq_ok hlower)).trans
      (traced_wire (.addBlock _ _ _) hadd rfl)).trans
      (traced_call (.wire (.connect _ _)) (wire_eq_ok.mpr ⟨_, hconnect, rfl⟩))

/-- The end of a session is made of calls, too. -/
theorem finishing_traced (program : Program α) : Finishing program (Traced program) where
  toExpressing := (closed_traced program []).toExpressing
  resolve number port _ _ _ hrun := traced_call (.resolve number port) hrun

/-- The end of a session resolves placeholders and returns the fragment. -/
theorem finish_traced {f : Fragment α} (hrun : finish program s = .ok f s') :
    Traced program s s' ∧ s'.fragment = f :=
  (finishing_traced program).finish hrun

end Session

end SignalNet
