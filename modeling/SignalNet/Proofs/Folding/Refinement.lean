import SignalNet.Proofs.Folding.Discrete

/-!
# Folding refines the values of expressions

Folding replaces an expression by one that has the same value wherever the
first one has a value at all.  It may have values where the first one has
none: `x * 0` becomes `0`, which is known even if `x` is not.

Values are read off a pool in more than one way: cycle by cycle from a running
network, or at once from what the host knows.  A `Reading` says what such a
way does with leaves, delays and edges; operators act on the values of their
operands in every reading.  `Pool.Traces` says that a family of traces is a
reading of all expressions of a pool.

* `Pool.simplify_refines` is the step: what folding decides on refines the
  form.
* `Pool.buildWithin_refines` follows a form through all its replacements.
-/

namespace SignalNet

open Computing

variable {α ι : Type}

/-- The values of an expression at the instants of a reading. -/
abbrev Trace (α ι : Type) := ι → Value α → Prop

/-- The second trace has every value that the first one has. -/
def Trace.Refines (x y : Trace α ι) : Prop :=
  ∀ (i : ι) (v : Value α), x i v → y i v

theorem Trace.Refines.trans {x y z : Trace α ι} (hxy : x.Refines y) (hyz : y.Refines z) :
    x.Refines z :=
  fun i v hv => hyz i v (hxy i v hv)

/-- A way to read values off a pool. -/
structure Reading (α ι : Type) where
  /-- What a sensor or an input of some kind shows. -/
  leaf : Form α → Kind → Trace α ι
  /-- What a delay with an initial value makes of its input. -/
  delay : Value α → Trace α ι → Trace α ι
  /-- What an edge detector makes of its input. -/
  edge : Bool → Trace α ι → Trace α ι
  delay_mono : ∀ {initial : Value α} {x y : Trace α ι}, x.Refines y →
    (delay initial x).Refines (delay initial y)
  edge_mono : ∀ {rising : Bool} {x y : Trace α ι}, x.Refines y →
    (edge rising x).Refines (edge rising y)

variable [Scalar α]

/-- The trace of a form, from the traces of its operands. -/
def Form.trace (ρ : Reading α ι) (kind : Kind) (form : Form α) (operand : ExprId → Trace α ι) :
    Trace α ι :=
  match form with
  | .constant c => fun _ v => v = c
  | .sensor _ _ | .input _ => ρ.leaf form kind
  | .pre x initial => ρ.delay initial (operand x)
  | .edge x rising => ρ.edge rising (operand x)
  | _ => fun i v => ∃ args, List.Forall₂ (fun d w => operand d i w) form.dependencies args ∧
      form.eval? args = some v

/-- A family of traces is a reading of the expressions of a pool. -/
structure Pool.Traces (ρ : Reading α ι) (p : Pool α) (trace : ExprId → Trace α ι) : Prop where
  node : ∀ {id : ExprId} {n : Node α}, p.get? id = some n →
    ∀ {i : ι} {v : Value α}, trace id i v ↔ n.form.trace ρ n.kind trace i v

/-! ### Traces of forms -/

section Forms

variable {ρ : Reading α ι} {kind : Kind} {trace : ExprId → Trace α ι} {i : ι} {v : Value α}

theorem Form.trace_pure {form : Form α} (hpure : form.isPure = true) :
    form.trace ρ kind trace i v ↔
      ∃ args, List.Forall₂ (fun d w => trace d i w) form.dependencies args ∧
        form.eval? args = some v := by
  cases form <;> first | exact Iff.rfl | cases hpure

theorem Form.trace_unary {op : UnaryOp} {x : ExprId} :
    (Form.unary op x).trace ρ kind trace i v ↔ ∃ w, trace x i w ∧ op.eval? w = some v := by
  constructor
  · rintro ⟨args, hargs, hv⟩
    cases hargs with
    | cons hw hrest =>
        cases hrest
        exact ⟨_, hw, hv⟩
  · rintro ⟨w, hw, hv⟩
    exact ⟨[w], .cons hw .nil, hv⟩

theorem Form.trace_binary {op : BinaryOp} {x y : ExprId} :
    (Form.binary op x y).trace ρ kind trace i v ↔
      ∃ u w, trace x i u ∧ trace y i w ∧ op.eval? u w = some v := by
  constructor
  · rintro ⟨args, hargs, hv⟩
    cases hargs with
    | cons hu hrest =>
        cases hrest with
        | cons hw hrest =>
            cases hrest
            exact ⟨_, _, hu, hw, hv⟩
  · rintro ⟨u, w, hu, hw, hv⟩
    exact ⟨[u, w], .cons hu (.cons hw .nil), hv⟩

/-- Only leaves look at their kind. -/
theorem Form.trace_of_gives {p : Pool α} {form : Form α} {k kind' : Kind} (h : p.Gives form k)
    (hv : form.trace ρ kind trace i v) : form.trace ρ kind' trace i v := by
  cases form <;> first | exact hv | cases h

omit [Scalar α] in
theorem Trace.forall₂_refines {trace' : ExprId → Trace α ι} {ds ds' : List ExprId}
    (h : List.Forall₂ (fun d d' => (trace d).Refines (trace' d')) ds ds') {args : List (Value α)}
    (hargs : List.Forall₂ (fun d w => trace d i w) ds args) :
    List.Forall₂ (fun d w => trace' d i w) ds' args := by
  induction h generalizing args with
  | nil =>
      cases hargs
      exact .nil
  | cons hd _ ih =>
      cases hargs with
      | cons hw hrest => exact .cons (hd _ _ hw) (ih hrest)

/-- The trace of a form grows with the traces of its operands, wherever they
stand. -/
theorem Form.trace_withDependencies {trace' : ExprId → Trace α ι} {form form' : Form α}
    {ds : List ExprId} (hform : form.isDiscrete = true)
    (hsame : form.withDependencies? ds = some form')
    (h : List.Forall₂ (fun d d' => (trace d).Refines (trace' d')) form.dependencies ds) :
    (form.trace ρ kind trace).Refines (form'.trace ρ kind trace') := by
  cases form with
  | unary op x =>
      rcases h with _ | ⟨hx, _ | _⟩
      cases hsame
      intro i v hv
      obtain ⟨w, hw, hvalue⟩ := Form.trace_unary.mp hv
      exact Form.trace_unary.mpr ⟨w, hx _ _ hw, hvalue⟩
  | binary op x y =>
      rcases h with _ | ⟨hx, _ | ⟨hy, _ | _⟩⟩
      cases hsame
      intro i v hv
      obtain ⟨u, w, hu, hw, hvalue⟩ := Form.trace_binary.mp hv
      exact Form.trace_binary.mpr ⟨u, w, hx _ _ hu, hy _ _ hw, hvalue⟩
  | compare op x y =>
      rintro i v ⟨args, hargs, hvalue⟩
      have hargs' := Trace.forall₂_refines h hargs
      rcases h with _ | ⟨_, _ | ⟨_, _ | _⟩⟩
      rcases hargs with _ | ⟨_, _ | ⟨_, _ | _⟩⟩
      cases hsame
      exact ⟨_, hargs', hvalue⟩
  | select c t f =>
      rintro i v ⟨args, hargs, hvalue⟩
      have hargs' := Trace.forall₂_refines h hargs
      rcases h with _ | ⟨_, _ | ⟨_, _ | ⟨_, _ | _⟩⟩⟩
      rcases hargs with _ | ⟨_, _ | ⟨_, _ | ⟨_, _ | _⟩⟩⟩
      cases hsame
      exact ⟨_, hargs', hvalue⟩
  | limit x lo hi =>
      rintro i v ⟨args, hargs, hvalue⟩
      have hargs' := Trace.forall₂_refines h hargs
      rcases h with _ | ⟨_, _ | ⟨_, _ | ⟨_, _ | _⟩⟩⟩
      rcases hargs with _ | ⟨_, _ | ⟨_, _ | ⟨_, _ | _⟩⟩⟩
      cases hsame
      exact ⟨_, hargs', hvalue⟩
  | pre x initial =>
      rcases h with _ | ⟨hx, _ | _⟩
      cases hsame
      exact ρ.delay_mono hx
  | edge x rising =>
      rcases h with _ | ⟨hx, _ | _⟩
      cases hsame
      exact ρ.edge_mono hx
  | constant c =>
      cases h
      cases hsame
      exact fun _ _ hv => hv
  | sensor name device =>
      cases h
      cases hsame
      exact fun _ _ hv => hv
  | input name =>
      cases h
      cases hsame
      exact fun _ _ hv => hv
  | _ => cases hform

end Forms

namespace Pool

section Traces

variable {ρ : Reading α ι} {p q : Pool α} {trace : ExprId → Trace α ι}

theorem Traces.of_extends (h : q.Traces ρ trace) (hpq : p.Extends q) : p.Traces ρ trace :=
  ⟨fun hn => h.node (hpq.get? hn)⟩

theorem Traces.form (h : p.Traces ρ trace) {id : ExprId} {form : Form α}
    (hform : p.form? id = some form) :
    ∃ kind, ∀ {i : ι} {v : Value α}, trace id i v ↔ form.trace ρ kind trace i v := by
  obtain ⟨n, hn, rfl⟩ := Option.map_eq_some_iff.mp hform
  exact ⟨n.kind, h.node hn⟩

/-- A literal has its value at every instant. -/
theorem Traces.literal (h : p.Traces ρ trace) {id : ExprId} {c : Value α}
    (hc : p.literal? id = some c) {i : ι} {v : Value α} : trace id i v ↔ v = c := by
  obtain ⟨form, hform, hliteral⟩ := Option.bind_eq_some_iff.mp hc
  obtain ⟨kind, htrace⟩ := h.form hform
  rw [htrace]
  cases form with
  | constant w =>
      cases hliteral
      exact Iff.rfl
  | _ => cases hliteral

end Traces

/-! ### One simplification -/

/-- What becomes of a form has every value of the given trace. -/
def Refined (ρ : Reading α ι) (trace : ExprId → Trace α ι) (whole : Trace α ι) :
    Simplified α → Prop
  | .keep => True
  | .existing id => whole.Refines (trace id)
  | .value c => whole.Refines fun _ v => v = c
  | .instead other => ∀ kind, whole.Refines (other.trace ρ kind trace)
  | .merge op x c => whole.Refines fun i v => ∃ w, trace x i w ∧ op.eval? w c = some v

theorem Refined.of_refines {ρ : Reading α ι} {trace : ExprId → Trace α ι} {x y : Trace α ι}
    (h : x.Refines y) {simplified : Simplified α} (hy : Refined ρ trace y simplified) :
    Refined ρ trace x simplified := by
  cases simplified with
  | keep => trivial
  | existing id => exact h.trans hy
  | value c => exact h.trans hy
  | instead other => exact fun kind => h.trans (hy kind)
  | merge op x c => exact h.trans hy

/-- An edge of a literal does not occur in a reading. -/
def Calm (ρ : Reading α ι) (p : Pool α) : Form α → Prop
  | .edge x rising => ∀ c, p.literal? x = some c →
      (ρ.edge rising fun _ w => w = c).Refines fun _ v => v = .boolean false
  | _ => True

section Simplify

variable {ρ : Reading α ι} {p : Pool α} {trace : ExprId → Trace α ι} {kind : Kind}

/-- Operators on literals are evaluated. -/
theorem evalLiterals?_refines (h : p.Traces ρ trace) {form : Form α} {c : Value α}
    (hc : p.evalLiterals? form = some c) :
    (form.trace ρ kind trace).Refines fun _ v => v = c := by
  intro i v hv
  unfold evalLiterals? at hc
  split at hc
  · next hpure =>
      obtain ⟨literals, hliterals, heval⟩ := Option.bind_eq_some_iff.mp hc
      obtain ⟨args, hargs, hvalue⟩ := (Form.trace_pure hpure).mp hv
      have hsame : args = literals := by
        have hmembers := mapM_some_iff_forall₂.mp hliterals
        clear hliterals heval hvalue hv
        generalize form.dependencies = ds at hmembers hargs
        induction hmembers generalizing args with
        | nil =>
            cases hargs
            rfl
        | cons hd _ ih =>
            cases hargs with
            | cons hw hrest => rw [(h.literal hd).mp hw, ih _ hrest]
      rw [hsame, heval] at hvalue
      exact (Option.some.inj hvalue).symm
  · cases hc

/-- Two negations cancel, and one absolute value suffices. -/
theorem simplifyUnary_refines (hlaws : Scalar.SignLaws α) (h : p.Traces ρ trace) {op : UnaryOp}
    (hop : op.isDiscrete = true) {x : ExprId} :
    Refined ρ trace ((Form.unary op x).trace ρ kind trace) (p.simplifyUnary op x) := by
  -- The operand is itself an operator on something.
  have hinner : ∀ {inner : UnaryOp} {y : ExprId}, p.form? x = some (.unary inner y) →
      ∀ {i : ι} {v : Value α}, (Form.unary op x).trace ρ kind trace i v →
      ∃ u w, trace y i u ∧ trace x i w ∧ inner.eval? u = some w ∧ op.eval? w = some v := by
    intro inner y hform i v hv
    obtain ⟨w, hw, hvalue⟩ := Form.trace_unary.mp hv
    obtain ⟨_, htrace⟩ := h.form hform
    obtain ⟨u, hu, hinner⟩ := Form.trace_unary.mp (htrace.mp hw)
    exact ⟨u, w, hu, hw, hinner, hvalue⟩
  unfold simplifyUnary
  split
  · next y hform =>
      intro i v hv
      obtain ⟨u, w, hu, -, hw, hvalue⟩ := hinner hform hv
      rw [UnaryOp.neg_neg hlaws hw hvalue]
      exact hu
  · next y hform =>
      intro i v hv
      obtain ⟨u, w, hu, -, hw, hvalue⟩ := hinner hform hv
      rw [UnaryOp.not_not hw hvalue]
      exact hu
  · cases hop
  · next y hform =>
      intro i v hv
      obtain ⟨u, w, -, hwx, hw, hvalue⟩ := hinner hform hv
      rw [UnaryOp.abs_abs hlaws hw hvalue]
      exact hwx
  · trivial

/-- Two literals on the right of the same operator are combined. -/
theorem mergeLiterals_refines (h : p.Traces ρ trace) {op : BinaryOp}
    (hop : op = .add ∨ op = .mul) {x : ExprId} {c : Value α} (hc : c.kind.isDiscrete = true) :
    Refined ρ trace (fun i v => ∃ w, trace x i w ∧ op.eval? w c = some v)
      (p.mergeLiterals op x c) := by
  unfold mergeLiterals
  split
  · next inner y z hform =>
      split
      · next hsame =>
          subst hsame
          cases hmerged : (p.literal? z).bind (inner.eval? · c) with
          | none => trivial
          | some merged =>
              obtain ⟨d, hd, hvalue⟩ := Option.bind_eq_some_iff.mp hmerged
              obtain ⟨_, htrace⟩ := h.form hform
              rintro i v ⟨w, hw, hv⟩
              obtain ⟨u, d', hu, hd', hinner⟩ := Form.trace_binary.mp (htrace.mp hw)
              rw [(h.literal hd).mp hd'] at hinner
              exact ⟨u, hu, BinaryOp.eval?_assoc hop hc hinner hv hvalue⟩
      · trivial
  · trivial

/-- Neutral and absorbing literals on the right. -/
theorem simplifyRight_refines (h : p.Traces ρ trace) {op : BinaryOp} {x : ExprId} {c : Value α}
    (hc : c.kind.isDiscrete = true) (hkind : ∃ a, op.resultKind? a c.kind = some kind) :
    Refined ρ trace (fun i v => ∃ w, trace x i w ∧ op.eval? w c = some v)
      (p.simplifyRight op x c kind) := by
  have hneutral : ((op = .add ∨ op = .sub) ∧ c = .integer 0 ∨
      (op = .mul ∨ op = .div) ∧ c = .integer 1 ∨ op = .and ∧ c = .boolean true ∨
      (op = .or ∨ op = .xor) ∧ c = .boolean false) →
      Trace.Refines (fun i v => ∃ w, trace x i w ∧ op.eval? w c = some v) (trace x) := by
    rintro hcases i v ⟨w, hw, hv⟩
    rw [BinaryOp.eval?_neutral hcases hv]
    exact hw
  unfold simplifyRight
  split
  · exact hneutral (by simp)
  · rintro i v ⟨w, -, hv⟩
    cases w <;> cases hv
    rw [Bool.and_false]
  · exact hneutral (by simp)
  · rintro i v ⟨w, -, hv⟩
    cases w <;> cases hv
    rw [Bool.or_true]
  · exact hneutral (by simp)
  · split
    · next hzero => exact hneutral (by simp [Value.isZero_eq hc hzero])
    · split
      · exact mergeLiterals_refines h (Or.inl rfl) hc
      · trivial
  · split
    · next hzero => exact hneutral (by simp [Value.isZero_eq hc hzero])
    · trivial
  · split
    · next hone => exact hneutral (by simp [Value.isOne_eq hc hone])
    · split
      · next hzero =>
          -- A product with the integer zero is the integer zero.
          obtain rfl := Value.isZero_eq hc (Bool.and_eq_true_iff.mp hzero).1
          obtain ⟨a, hresult⟩ := hkind
          rintro i v ⟨w, -, hv⟩
          cases a <;> cases hresult
          cases w <;> cases hv
          rw [Int64.mul_zero]
          rfl
      · split
        · exact mergeLiterals_refines h (Or.inr rfl) hc
        · trivial
  · split
    · next hone => exact hneutral (by simp [Value.isOne_eq hc hone])
    · trivial
  · trivial

theorem simplifyBinary_refines (h : p.Traces ρ trace) (hp : p.WellFormed) (hd : p.Discrete)
    {op : BinaryOp} {x y : ExprId} (hkind : p.Gives (.binary op x y) kind) :
    Refined ρ trace ((Form.binary op x y).trace ρ kind trace) (p.simplifyBinary op x y kind) := by
  unfold simplifyBinary
  dsimp only
  split
  · next c hx hy =>
      split
      · next hcommutes =>
          intro k i v hv
          obtain ⟨u, w, hu, hw, hvalue⟩ := Form.trace_binary.mp hv
          have huc : u = c := (h.literal hx).mp hu
          rw [huc, BinaryOp.eval?_comm hcommutes (hd.literal hp hx)] at hvalue
          exact Form.trace_binary.mpr ⟨w, c, hw, huc ▸ hu, hvalue⟩
      · trivial
  · next c hy =>
      obtain ⟨a, b, -, hb, hresult⟩ := hkind
      rw [hp.literal_kind hy] at hb
      cases hb
      refine Refined.of_refines ?_ (simplifyRight_refines h (hd.literal hp hy) ⟨a, hresult⟩)
      intro i v hv
      obtain ⟨u, w, hu, hw, hvalue⟩ := Form.trace_binary.mp hv
      rw [(h.literal hy).mp hw] at hvalue
      exact ⟨u, hu, hvalue⟩
  · trivial

/-- **A simplification refines the form.** -/
theorem simplify_refines (hlaws : Scalar.SignLaws α) (h : p.Traces ρ trace) (hp : p.WellFormed)
    (hd : p.Discrete) {form : Form α} (hform : form.isDiscrete = true) (hcalm : Calm ρ p form)
    (hkind : p.Gives form kind) :
    Refined ρ trace (form.trace ρ kind trace) (p.simplify form kind) := by
  unfold simplify
  cases hliterals : p.evalLiterals? form with
  | some v => exact evalLiterals?_refines h hliterals
  | none =>
      cases form with
      | unary op x => exact simplifyUnary_refines hlaws h hform
      | binary op x y => exact simplifyBinary_refines h hp hd hkind
      | select c t f =>
          -- The condition and the chosen branch have values.
          have hbranch : ∀ {i : ι} {v : Value α}, (Form.select c t f).trace ρ kind trace i v →
              ∃ b, trace c i (.boolean b) ∧ trace (if b then t else f) i v := by
            rintro i v ⟨args, hargs, hv⟩
            cases hargs with
            | cons hcondition hrest =>
                cases hrest with
                | cons ht hrest =>
                    cases hrest with
                    | cons hf hrest =>
                        cases hrest
                        next condition vt vf =>
                          cases condition <;> cases hv
                          next b =>
                            refine ⟨b, hcondition, ?_⟩
                            cases b
                            · exact hf
                            · exact ht
          simp only
          split
          · next hc =>
              obtain ⟨literal, hliteral, hboolean⟩ := Option.bind_eq_some_iff.mp hc
              intro i v hv
              obtain ⟨b, hb, hvalue⟩ := hbranch hv
              rw [← (h.literal hliteral).mp hb] at hboolean
              cases hboolean
              exact hvalue
          · next hc =>
              obtain ⟨literal, hliteral, hboolean⟩ := Option.bind_eq_some_iff.mp hc
              intro i v hv
              obtain ⟨b, hb, hvalue⟩ := hbranch hv
              rw [← (h.literal hliteral).mp hb] at hboolean
              cases hboolean
              exact hvalue
          · split
            · next hsame =>
                intro i v hv
                obtain ⟨b, -, hvalue⟩ := hbranch hv
                rw [← hsame, ite_self] at hvalue
                exact hvalue
            · trivial
      | edge x rising =>
          simp only
          split
          · next hsome =>
              obtain ⟨c, hc⟩ := Option.isSome_iff_exists.mp hsome
              have hinput : (trace x).Refines fun _ w => w = c :=
                fun i v hv => (h.literal hc).mp hv
              exact (ρ.edge_mono hinput).trans (hcalm c hc)
          · trivial
      | compare op x y => trivial
      | limit x lo hi => trivial
      | pre x initial => trivial
      | constant v => trivial
      | sensor name device => trivial
      | input name => trivial
      | _ => cases hform

end Simplify

/-! ### Building -/

/-- The literal for an integer or a boolean has its value. -/
theorem constant_trace {ρ : Reading α ι} {p q : Pool α} (hp : p.WellFormed)
    {trace : ExprId → Trace α ι} {c : Value α} {id : ExprId} (hc : c.kind.isDiscrete = true)
    (h : constant c p = .ok id q) (htraces : q.Traces ρ trace) {i : ι} {v : Value α} :
    trace id i v ↔ v = c := by
  obtain ⟨m, hm, hform, -⟩ := intern_rigid hp h hc
  rw [htraces.node hm, hform]
  exact Iff.rfl

/-- **Building refines the form.**  However often the form is replaced, the
expression that comes out has every value that the form has. -/
theorem buildWithin_refines (hlaws : Scalar.SignLaws α) {ρ : Reading α ι}
    {trace : ExprId → Trace α ι} {fuel : Nat} {form : Form α} {p q : Pool α} (hp : p.WellFormed)
    (hd : p.Discrete) (hform : form.isDiscrete = true) {id : ExprId}
    (h : buildWithin fuel form p = .ok id q) (htraces : q.Traces ρ trace)
    (hcalm : Calm ρ p form) {kind : Kind} : (form.trace ρ kind trace).Refines (trace id) := by
  induction fuel using Nat.strongRecOn generalizing form p kind with
  | _ fuel ih =>
      obtain ⟨-, hpq⟩ := (buildWithin_sound fuel form).grown hp h
      obtain ⟨scope, k, hk, hcases⟩ := buildWithin_cases h
      have hgives := infer_gives hk
      have hstays := simplify_stays hp hd hform hgives
      have hsimplified :=
        simplify_refines hlaws (htraces.of_extends hpq) hp hd hform hcalm hgives
      -- Composite forms do not look at the kind that they are read with.
      have hsame : (form.trace ρ kind trace).Refines (form.trace ρ k trace) :=
        fun i v hv => Form.trace_of_gives hgives hv
      refine hsame.trans ?_
      rcases hcases with hintern | ⟨-, ⟨hexisting, rfl⟩ | ⟨c, hvalue, hconstant⟩ |
        ⟨fuel', other, rfl, hinstead, hbuild⟩ | ⟨fuel', op, x, c, d, p₁, rfl, hmerge, hc, hbuild⟩⟩
      · intro i v hv
        obtain ⟨m, hm, hmform, hmkind⟩ := intern_rigid hp hintern (hd.rigid hgives)
        rw [htraces.node hm, hmform, hmkind]
        exact hv
      · rw [hexisting] at hsimplified
        exact hsimplified
      · rw [hvalue] at hsimplified hstays
        intro i v hv
        exact (constant_trace hp hstays hconstant htraces).mpr (hsimplified i v hv)
      · rw [hinstead] at hsimplified hstays
        obtain ⟨op, x, y, rfl, hop⟩ := hstays
        have hother : (Form.binary (α := α) op x y).isDiscrete = true := hop
        exact (hsimplified k).trans (ih fuel' (Nat.lt_succ_self _) hp hd hother hbuild trivial)
      · rw [hmerge] at hsimplified hstays
        have hliteral := constant_yields hp hc
        obtain ⟨-, hlater⟩ := (buildWithin_sound fuel' _).grown hliteral.wellFormed hbuild
        have hmerged : (Form.binary (α := α) op x d).isDiscrete = true := hstays.1
        have hwhole : ((Form.binary op x d).trace ρ k trace).Refines (trace id) :=
          ih fuel' (Nat.lt_succ_self _) hliteral.wellFormed (hd.constant hstays.2 hc) hmerged
            hbuild trivial
        refine hsimplified.trans (Trace.Refines.trans ?_ hwhole)
        rintro i v ⟨w, hw, hv⟩
        exact Form.trace_binary.mpr ⟨w, c, hw,
          (constant_trace hp hstays.2 hc (htraces.of_extends hlater)).mpr rfl, hv⟩

end Pool

end SignalNet
