import SignalNet.Proofs.Pool.Replacements

/-!
# Constructions that fail

A construction that fails has left no trace in the pool, unless it takes several
steps.  Most constructions look at the operands first and change the pool last
(`Pool.Atomic`), and then there is nothing to undo.

Folding is the exception: it may add a literal that two others have merged into,
and then build another form with it, whose scopes and kinds are looked at once
more.  By then nothing can go wrong any more.  The literal is a number of the
kind that the form has (`Pool.merge_kinds`), and it can be used anywhere
(`Pool.buildWithin_right`).

`Pool.failed_call_unchanged` is the result for all calls that build one form.
-/

namespace SignalNet.Pool

open Computing

variable {α : Type} [Scalar α]

/-! ### Building forms -/

/-- Without replacements, scopes that join and operands that fit are all that
it takes. -/
theorem buildWithin_zero_total {p : Pool α} {form : Form α} {scope : Scope} {kind : Kind}
    (hscope : p.joinScopes .global form.dependencies = .ok scope)
    (hkind : p.infer form = .ok kind) : ∃ id q, buildWithin 0 form p = .ok id q := by
  rw [buildWithin_apply, hscope, hkind]
  dsimp only
  cases (if p.folding then p.simplify form kind else .keep) with
  | existing id => exact ⟨id, p, rfl⟩
  | value v => exact intern_total _ p
  | _ => exact intern_total _ p

/-- Otherwise nothing has happened yet. -/
theorem buildWithin_zero_error {p q : Pool α} {form : Form α} {e : ExprError α}
    (h : buildWithin 0 form p = .error e q) : q = p := by
  cases hscope : p.joinScopes .global form.dependencies with
  | error _ =>
      rw [buildWithin_apply, hscope] at h
      cases h
      rfl
  | ok scope =>
      cases hkind : p.infer form with
      | error _ =>
          rw [buildWithin_apply, hscope, hkind] at h
          cases h
          rfl
      | ok kind =>
          obtain ⟨id, r, hrun⟩ := buildWithin_zero_total hscope hkind
          rw [h] at hrun
          cases hrun

/-- Literals that merge, what they merge into and the operand that is left are
all of the kind of the form. -/
theorem merge_kinds {p : Pool α} (hp : p.WellFormed) {form : Form α} {kind : Kind}
    (hkind : p.infer form = .ok kind) {op : BinaryOp} {z : ExprId} {d : Value α}
    (h : p.simplify form kind = .merge op z d) :
    p.kindOf z = .ok kind ∧ d.kind = kind ∧ op.resultKind? kind kind = some kind := by
  obtain ⟨x, y, c, rfl, hc, hop, hnumeric, z', w, hform, hw, heval⟩ := simplify_eq_merge hp h
  obtain ⟨a, b, hx, hy, hresult⟩ := infer_gives hkind
  obtain ⟨rfl, rfl, hself⟩ := resultKind?_numeric hop hresult hnumeric
  obtain ⟨a', b', hz, hz', hresult'⟩ := hp.form?_gives hform rfl hx
  obtain ⟨rfl, rfl, -⟩ := resultKind?_numeric hop hresult' hnumeric
  have hckind : c.kind = b' := Except.ok.inj ((hp.literal_kind hc).symm.trans hy)
  have hwkind : w.kind = b' := Except.ok.inj ((hp.literal_kind hw).symm.trans hz')
  refine ⟨hz, ?_, hself⟩
  rcases op.eval?_kind w c with hsame | ⟨m, n, hdiv, -⟩
  · rw [heval, hwkind, hckind, hself] at hsame
    exact Option.some.inj hsame
  · rcases hop with rfl | rfl <;> cases hdiv

/-- The form that takes the place of two literals has the same kind. -/
theorem merged_infers {p q : Pool α} (hp : p.WellFormed) {form : Form α} {kind : Kind}
    (hkind : p.infer form = .ok kind) {op : BinaryOp} {z d : ExprId} {c : Value α}
    (h : p.simplify form kind = .merge op z c) (hd : constant c p = .ok d q) :
    q.infer (.binary op z d) = .ok kind := by
  obtain ⟨hz, rfl, hself⟩ := merge_kinds hp hkind h
  have hliteral := constant_yields hp hd
  simp [infer, hliteral.extends.kindOf hz, hliteral.kind, hself, fitting, bind, Except.bind]

/-- **A literal on the right lets building go through**, if the operands fit.
What it merges into stands on the right again. -/
theorem buildWithin_right {p : Pool α} (hp : p.WellFormed) {op : BinaryOp} {x y : ExprId}
    {c : Value α} (hc : p.literal? y = some c) {kind : Kind}
    (hkind : p.infer (.binary op x y) = .ok kind) (fuel : Nat) :
    ∃ id q, buildWithin fuel (.binary op x y) p = .ok id q := by
  obtain ⟨a, _, hx, -, -⟩ := infer_gives hkind
  obtain ⟨scope, hscope⟩ := (joinScopes_literal hp hx hc).1
  induction fuel generalizing p x y c kind a scope with
  | zero => exact buildWithin_zero_total hscope hkind
  | succ fuel ih =>
      rw [buildWithin_succ]
      cases hnext : p.replacement? (.binary op x y) with
      | none => exact buildWithin_zero_total hscope hkind
      | some next =>
          obtain ⟨other, q⟩ := next
          obtain ⟨-, k, z, d, e, hk, hmerge, he, rfl⟩ := replacement?_right hp hc hnext
          have hagain := merged_infers hp hk hmerge he
          obtain ⟨v, hv⟩ := constant_literal hp he
          have hq := (constant_yields hp he).wellFormed
          obtain ⟨b, _, hz, -, -⟩ := infer_gives hagain
          obtain ⟨joined, hjoined⟩ := (joinScopes_literal hq hz hv).1
          exact ih hq hv hagain b hz joined hjoined

/-- A form that cannot be built has changed nothing: no literal has been added
on the way. -/
theorem buildWithin_error {p q : Pool α} (hp : p.WellFormed) {fuel : Nat} {form : Form α}
    {e : ExprError α} (h : buildWithin fuel form p = .error e q) : q = p := by
  induction fuel generalizing form with
  | zero => exact buildWithin_zero_error h
  | succ fuel ih =>
      rw [buildWithin_succ] at h
      cases hnext : p.replacement? form with
      | none =>
          rw [hnext] at h
          exact buildWithin_zero_error h
      | some next =>
          obtain ⟨other, r⟩ := next
          rw [hnext] at h
          obtain ⟨kind, hkind, -, ⟨-, rfl⟩ | ⟨op, z, c, d, hmerge, hd, rfl⟩⟩ :=
            replacement?_eq_some hnext
          · exact ih h
          · obtain ⟨v, hv⟩ := constant_literal hp hd
            have hr := (constant_yields hp hd).wellFormed
            obtain ⟨id, s, hrun⟩ := buildWithin_right hr hv (merged_infers hp hkind hmerge hd) fuel
            cases h.symm.trans hrun

/-! ### Calls -/

/-- If the construction fails, the pool is what it was. -/
def Atomic {β : Type} (x : Building α β) : Prop :=
  ∀ {p q : Pool α} {e : ExprError α}, p.WellFormed → x p = .error e q → q = p

theorem atomic_intern (n : Node α) : Atomic (intern n) := by
  intro p q e _ h
  obtain ⟨id, r, hrun⟩ := intern_total n p
  rw [h] at hrun
  cases hrun

theorem atomic_build (form : Form α) : Atomic (build form) :=
  fun hp h => buildWithin_error hp h

theorem atomic_throw {β : Type} (e : ExprError α) : Atomic (throw e : Building α β) := by
  intro p q e' _ h
  cases h
  rfl

/-- Looking something up comes before any change. -/
theorem atomic_query {β γ : Type} {x : Except (ExprError α) β} {f : β → Building α γ}
    (hf : ∀ b, Atomic (f b)) : Atomic (Building.ofExcept x >>= f) := by
  intro p q e hp h
  cases x with
  | error e' => exact atomic_throw e' hp h
  | ok b => exact hf b hp h

theorem atomic_get {β : Type} {f : Pool α → Building α β} (hf : ∀ p, Atomic (f p)) :
    Atomic (get >>= f) :=
  fun hp h => hf _ hp h

theorem atomic_custom (form : CustomForm α) : Atomic (custom form) := by
  unfold custom
  dsimp only
  split
  · exact atomic_throw _
  · split
    · exact atomic_intern _
    · exact atomic_build _

theorem atomic_persist (source : ExprId) (target : Scope) :
    Atomic (persist (α := α) source target) := by
  refine atomic_get fun p => atomic_query fun scope => ?_
  split
  · -- The handle is given out in any case.
    intro p q e _ h
    cases h
  · exact atomic_throw _

theorem atomic_persisted (handle : Nat) : Atomic (persisted (α := α) handle) :=
  atomic_get fun _ => atomic_query fun _ => atomic_query fun _ => atomic_intern _

/-- A call that builds a single form.  Conjunctions, disjunctions and
substitutions go step by step, and a placeholder is counted first. -/
def Call.isSingle : Call α → Bool
  | .placeholder _ _ _ | .all _ | .any _ | .substitute _ _ => false
  | _ => true

/-- **A failed call leaves no trace**, with folding or without it, if it is one
that builds a single form: the pool is what it was before, with its nodes, its
persisted values and the number of the next placeholder. -/
theorem failed_call_unchanged {p q : Pool α} (hp : p.Reachable) {c : Call α}
    (hsingle : c.isSingle = true) {e : ExprError α} (h : c.run p = .error e q) : q = p := by
  have hatomic : Atomic c.run := by
    cases c with
    | constant v => exact atomic_intern _
    | sensor name kind => exact atomic_intern _
    | deviceSensor host device name kind => exact atomic_intern _
    | input name kind scope => exact atomic_intern _
    | parameter name kind => exact atomic_intern _
    | clock signal => exact atomic_intern _
    | relation source target => exact atomic_intern _
    | custom form => exact atomic_custom form
    | persist source target => exact atomic_persist source target
    | persisted handle => exact atomic_persisted handle
    | placeholder label kind scope => cases hsingle
    | all terms => cases hsingle
    | any terms => cases hsingle
    | substitute root map => cases hsingle
    | _ => exact atomic_build _
  exact hatomic hp.wellFormed h

/-- A number of one context plus two, and a number of another context. -/
def Sample.neighbours : Pool Float :=
  performAll [.input "here" .integer (.context 1), .constant (.integer 2), .binary .add 0 1,
    .input "there" .integer (.context 2)] { folding := true }

/-- The numbers of two contexts are not added. -/
theorem neighbours_unchanged :
    ∃ e q, (Call.binary .add 2 3).run Sample.neighbours = .error e q ∧ q = Sample.neighbours := by
  have hresult : outcome ((Call.binary .add 2 3).run Sample.neighbours) =
      .error (.scopeMismatch (.context 1) (.context 2)) := by
    decide +kernel
  have hrun := outcome_eq_error hresult
  exact ⟨_, _, hrun, failed_call_unchanged ⟨true, _, rfl⟩ rfl hrun⟩

end SignalNet.Pool
