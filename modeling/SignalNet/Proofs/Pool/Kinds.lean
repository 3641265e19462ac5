import SignalNet.Proofs.Operator
import SignalNet.Proofs.Pool.Construction

/-!
# Kinds of expressions

Typing a form says which kinds its operands have and which kind results from
them (`Pool.Gives`).  Folding may put another expression in the place of a
form, but one of the same kind:

* `Pool.simplify_kind` says it for a single simplification;
* `Pool.build_yields` says it for a form that is built, with all the
  replacements on the way.
-/

namespace SignalNet.Pool

open Computing

variable {α : Type} [Scalar α]

/-! ### What typing says -/

omit [Scalar α] in
theorem kindOf_eq_ok {p : Pool α} {id : ExprId} {kind : Kind} :
    p.kindOf id = .ok kind ↔ ∃ n, p.get? id = some n ∧ n.kind = kind := by
  unfold kindOf node
  cases p.get? id <;> simp [Except.map]

omit [Scalar α] in
theorem Extends.kindOf {p q : Pool α} (h : p.Extends q) {id : ExprId} {kind : Kind}
    (hkind : p.kindOf id = .ok kind) : q.kindOf id = .ok kind := by
  obtain ⟨n, hn, hnk⟩ := kindOf_eq_ok.mp hkind
  exact kindOf_eq_ok.mpr ⟨n, h.get? hn, hnk⟩

omit [Scalar α] in
theorem fitting_eq_ok {operator : String} {operands : List Kind} {result : Option Kind}
    {kind : Kind} :
    fitting (α := α) operator operands result = .ok kind ↔ result = some kind := by
  cases result <;> simp [fitting]

omit [Scalar α] in
/-- A result that is there under a condition. -/
theorem fitting_ite_eq_ok {operator : String} {operands : List Kind} {P : Prop} [Decidable P]
    {result kind : Kind} :
    fitting (α := α) operator operands (if P then some result else none) = .ok kind ↔
      P ∧ result = kind := by
  rw [fitting_eq_ok, Option.ite_none_right_eq_some, Option.some.injEq]

/-- A parameter in range is finite and not below or at zero. -/
theorem positive_eq_ok {what : String} {complaint : InvalidArgument α} {x : α} {u : Unit}
    (h : positive what complaint x = .ok u) :
    Scalar.isFinite x = true ∧ Scalar.le x 0 = false := by
  unfold positive Scalar.ensureFinite at h
  by_cases hfinite : Scalar.isFinite x = true
  · simp only [hfinite, if_true] at h
    cases hle : Scalar.le x 0 with
    | true => simp [hle] at h
    | false => exact ⟨hfinite, rfl⟩
  · simp [hfinite] at h

/-- A composite form is of the given kind: its operands have the kinds that it
asks for, and its parameters are in range. -/
def Gives (p : Pool α) : Form α → Kind → Prop
  | .unary op x, kind => ∃ a, p.kindOf x = .ok a ∧ op.resultKind? a = some kind
  | .binary op x y, kind => ∃ a b, p.kindOf x = .ok a ∧ p.kindOf y = .ok b ∧
      op.resultKind? a b = some kind
  | .compare op x y, kind => ∃ a b, p.kindOf x = .ok a ∧ p.kindOf y = .ok b ∧
      op.resultKind? a b = some kind
  | .select c t f, kind => p.kindOf c = .ok .boolean ∧ p.kindOf t = .ok kind ∧
      p.kindOf f = .ok kind
  | .limit x lo hi, kind => p.kindOf x = .ok kind ∧ p.kindOf lo = .ok kind ∧
      p.kindOf hi = .ok kind ∧ kind.isNumeric = true
  | .smooth x _, kind => p.kindOf x = .ok .double ∧ kind = .double
  | .rateLimit x rate, kind => p.kindOf x = .ok .double ∧ kind = .double ∧
      Scalar.isFinite rate = true ∧ Scalar.le rate 0 = false
  | .pre x initial, kind => p.kindOf x = .ok kind ∧ initial.kind = kind
  | .edge x _, kind => p.kindOf x = .ok .boolean ∧ kind = .boolean
  | .pack parts, kind => (∀ d ∈ parts, p.kindOf d = .ok .double) ∧ kind = .array parts.length
  | .index x position, kind => ∃ a length, p.kindOf x = .ok a ∧ a.length? = some length ∧
      position < length ∧ a.element? = some kind
  | .compose c parts, kind =>
      List.Forall₂ (fun d k => p.kindOf d = .ok k) parts c.parts ∧ kind = c.kind
  | .custom c, kind => kind = c.kind
  | _, _ => False

/-- Typing a form makes sure of all that. -/
theorem infer_gives {p : Pool α} {form : Form α} {kind : Kind} (h : p.infer form = .ok kind) :
    p.Gives form kind := by
  cases form with
  | unary op x =>
      obtain ⟨a, ha, h⟩ := except_bind_eq_ok.mp h
      exact ⟨a, ha, fitting_eq_ok.mp h⟩
  | binary op x y =>
      obtain ⟨a, ha, h⟩ := except_bind_eq_ok.mp h
      obtain ⟨b, hb, h⟩ := except_bind_eq_ok.mp h
      exact ⟨a, b, ha, hb, fitting_eq_ok.mp h⟩
  | compare op x y =>
      obtain ⟨a, ha, h⟩ := except_bind_eq_ok.mp h
      obtain ⟨b, hb, h⟩ := except_bind_eq_ok.mp h
      exact ⟨a, b, ha, hb, fitting_eq_ok.mp h⟩
  | select c t f =>
      obtain ⟨kc, hc, h⟩ := except_bind_eq_ok.mp h
      obtain ⟨kt, ht, h⟩ := except_bind_eq_ok.mp h
      obtain ⟨kf, hf, h⟩ := except_bind_eq_ok.mp h
      obtain ⟨⟨rfl, rfl⟩, rfl⟩ := fitting_ite_eq_ok.mp h
      exact ⟨hc, ht, hf⟩
  | limit x lo hi =>
      obtain ⟨k, hk, h⟩ := except_bind_eq_ok.mp h
      obtain ⟨klo, hlo, h⟩ := except_bind_eq_ok.mp h
      obtain ⟨khi, hhi, h⟩ := except_bind_eq_ok.mp h
      obtain ⟨result, hfitting, h⟩ := except_bind_eq_ok.mp h
      obtain ⟨⟨hnumeric, rfl, rfl⟩, rfl⟩ := fitting_ite_eq_ok.mp hfitting
      -- Whatever is said about bounds that are literals, the kind stays.
      split at h
      · split at h
        · cases h
        · cases h
          exact ⟨hk, hlo, hhi, hnumeric⟩
      · cases h
        exact ⟨hk, hlo, hhi, hnumeric⟩
  | smooth x tau =>
      obtain ⟨k, hk, h⟩ := except_bind_eq_ok.mp h
      obtain ⟨result, hfitting, h⟩ := except_bind_eq_ok.mp h
      obtain ⟨u, hpositive, h⟩ := except_bind_eq_ok.mp h
      obtain ⟨rfl, rfl⟩ := fitting_ite_eq_ok.mp hfitting
      cases h
      exact ⟨hk, rfl⟩
  | rateLimit x rate =>
      obtain ⟨k, hk, h⟩ := except_bind_eq_ok.mp h
      obtain ⟨result, hfitting, h⟩ := except_bind_eq_ok.mp h
      obtain ⟨u, hpositive, h⟩ := except_bind_eq_ok.mp h
      obtain ⟨rfl, rfl⟩ := fitting_ite_eq_ok.mp hfitting
      cases h
      exact ⟨hk, rfl, positive_eq_ok hpositive⟩
  | pre x initial =>
      obtain ⟨k, hk, h⟩ := except_bind_eq_ok.mp h
      obtain ⟨hinitial, rfl⟩ := fitting_ite_eq_ok.mp h
      exact ⟨hk, hinitial⟩
  | edge x rising =>
      obtain ⟨k, hk, h⟩ := except_bind_eq_ok.mp h
      obtain ⟨rfl, rfl⟩ := fitting_ite_eq_ok.mp h
      exact ⟨hk, rfl⟩
  | pack parts =>
      simp only [infer] at h
      split at h
      · cases h
      · obtain ⟨kinds, hkinds, h⟩ := except_bind_eq_ok.mp h
        obtain ⟨hall, rfl⟩ := fitting_ite_eq_ok.mp h
        refine ⟨?_, rfl⟩
        intro d hd
        obtain ⟨k, hk, hdk⟩ := forall₂_exists_of_mem (mapM_ok_iff_forall₂.mp hkinds) hd
        have hdouble := List.all_eq_true.mp hall k hk
        rw [hdk, beq_iff_eq.mp hdouble]
  | index x position =>
      obtain ⟨k, hk, h⟩ := except_bind_eq_ok.mp h
      split at h
      · next length element hlength helement =>
          split at h
          · next hposition =>
              cases h
              exact ⟨k, length, hk, hlength, hposition, helement⟩
          · cases h
      · cases h
  | compose c parts =>
      obtain ⟨kinds, hkinds, h⟩ := except_bind_eq_ok.mp h
      obtain ⟨rfl, rfl⟩ := fitting_ite_eq_ok.mp h
      exact ⟨mapM_ok_iff_forall₂.mp hkinds, rfl⟩
  | custom c =>
      obtain ⟨kinds, -, h⟩ := except_bind_eq_ok.mp h
      cases h
      rfl
  | _ => cases h

/-! ### Values of forms -/

/-- The operands of a form and their values, with the kinds of the values. -/
abbrev Evaluates (p : Pool α) (ids : List ExprId) (args : List (Value α)) : Prop :=
  List.Forall₂ (fun d a => p.kindOf d = .ok a.kind) ids args

omit [Scalar α] in
/-- A value that exists, and is then of some kind. -/
theorem kind_of_value {x : Option (Value α)} {kind : Kind} (h : ∃ w, x = some w ∧ w.kind = kind)
    {v : Value α} (hv : x = some v) : v.kind = kind := by
  obtain ⟨w, hw, rfl⟩ := h
  rw [hw] at hv
  cases hv
  rfl

/-- The value of a form is of its kind, if the values of the operands are of
theirs. -/
theorem eval?_kind {p : Pool α} {form : Form α} {kind : Kind} (h : p.Gives form kind)
    {args : List (Value α)} (hargs : p.Evaluates form.dependencies args) {v : Value α}
    (hv : form.eval? args = some v) : v.kind = kind := by
  have hsame : ∀ {d : ExprId} {a : Value α} {k : Kind}, p.kindOf d = .ok a.kind →
      p.kindOf d = .ok k → a.kind = k :=
    fun ha hk => Except.ok.inj (ha.symm.trans hk)
  cases form with
  | unary op x =>
      match args, hargs, hv with
      | [a], .cons ha .nil, hv =>
          obtain ⟨k, hk, hresult⟩ := h
          rw [← hsame ha hk, ← op.eval?_kind] at hresult
          exact kind_of_value (Option.map_eq_some_iff.mp hresult) hv
  | binary op x y =>
      match args, hargs, hv with
      | [a, b], .cons ha (.cons hb .nil), hv =>
          obtain ⟨k, l, hk, hl, hresult⟩ := h
          rw [← hsame ha hk, ← hsame hb hl] at hresult
          rcases op.eval?_kind a b with hkind | ⟨-, -, -, -, -, -, hnone⟩
          · rw [← hkind] at hresult
            exact kind_of_value (Option.map_eq_some_iff.mp hresult) hv
          · cases hnone.symm.trans hv
  | compare op x y =>
      match args, hargs, hv with
      | [a, b], .cons ha (.cons hb .nil), hv =>
          obtain ⟨k, l, hk, hl, hresult⟩ := h
          rw [← hsame ha hk, ← hsame hb hl, ← op.eval?_kind] at hresult
          exact kind_of_value (Option.map_eq_some_iff.mp hresult) hv
  | select c t f =>
      match args, hargs, hv with
      | [a, b, d], .cons ha (.cons hb (.cons hd .nil)), hv =>
          obtain ⟨hc, ht, hf⟩ := h
          exact kind_of_value (Value.select?_kind (hsame ha hc) (hsame hb ht) (hsame hd hf)) hv
  | limit x lo hi =>
      match args, hargs, hv with
      | [a, b, d], .cons ha (.cons hb (.cons hd .nil)), hv =>
          obtain ⟨hx, hlo, hhi, hnumeric⟩ := h
          obtain rfl := hsame ha hx
          exact kind_of_value (Value.limit?_kind hnumeric (hsame hb hlo) (hsame hd hhi)) hv
  | index x position =>
      match args, hargs, hv with
      | [a], .cons ha .nil, hv =>
          obtain ⟨k, length, hk, hlength, hposition, helement⟩ := h
          rw [← hsame ha hk] at hlength helement
          exact kind_of_value (Value.index?_kind hlength helement hposition) hv
  | pack parts =>
      obtain ⟨hdouble, rfl⟩ := h
      have hdoubles : ∀ a ∈ args, a.kind = .double := by
        intro a ha
        obtain ⟨d, hd, hda⟩ := forall₂_exists_of_mem hargs.flip ha
        exact hsame hda (hdouble d hd)
      rw [kind_of_value (Value.pack?_kind hdoubles) hv, ← hargs.length_eq]
      rfl
  | compose c parts =>
      obtain ⟨hparts, rfl⟩ := h
      have hkinds : args.map Value.kind = c.parts := by
        have hargs' : List.Forall₂ (fun d k => p.kindOf d = .ok k) parts (args.map Value.kind) :=
          List.forall₂_map_right_iff.mpr hargs
        exact List.right_unique_forall₂' (fun _ _ _ h h' => Except.ok.inj (h.symm.trans h'))
          hargs' hparts
      exact kind_of_value (Value.compose?_kind hkinds) hv
  | _ => cases hv

/-- A literal has the kind of its value. -/
theorem WellFormed.literal_kind {p : Pool α} (hp : p.WellFormed) {id : ExprId} {v : Value α}
    (h : p.literal? id = some v) : p.kindOf id = .ok v.kind := by
  obtain ⟨form, hform, hv⟩ := Option.bind_eq_some_iff.mp h
  obtain ⟨n, hn, rfl⟩ := Option.map_eq_some_iff.mp hform
  cases hconstant : n.form with
  | constant w =>
      rw [hconstant] at hv
      cases hv
      have hleaf := (hp.admitted hn).leaf (by rw [hconstant]; rfl)
      simp only [Node.OfLeaf, hconstant] at hleaf
      exact kindOf_eq_ok.mpr ⟨n, hn, hleaf.1⟩
  | _ =>
      rw [hconstant] at hv
      cases hv

/-- The value of a form whose operands are literals. -/
theorem evalLiterals?_kind {p : Pool α} (hp : p.WellFormed) {form : Form α} {kind : Kind}
    (h : p.Gives form kind) {v : Value α} (hv : p.evalLiterals? form = some v) :
    v.kind = kind := by
  unfold evalLiterals? at hv
  split at hv
  · obtain ⟨args, hargs, heval⟩ := Option.bind_eq_some_iff.mp hv
    have hliterals := mapM_some_iff_forall₂.mp hargs
    exact eval?_kind h (hliterals.imp fun _ _ => hp.literal_kind) heval
  · cases hv

/-! ### Folding -/

/-- What becomes of a form is of the given kind. -/
def Becomes (p : Pool α) (kind : Kind) : Simplified α → Prop
  | .keep => True
  | .existing id => p.kindOf id = .ok kind
  | .value v => v.kind = kind
  | .instead other => ∀ k, p.infer other = .ok k → k = kind
  | .merge op x c => ∃ a, p.kindOf x = .ok a ∧ ∀ k, op.resultKind? a c.kind = some k → k = kind

/-- What a node in the pool was built from. -/
theorem WellFormed.form?_gives {p : Pool α} (hp : p.WellFormed) {id : ExprId} {form : Form α}
    (h : p.form? id = some form) (hcomposite : form.isComposite = true) {kind : Kind}
    (hkind : p.kindOf id = .ok kind) : p.Gives form kind := by
  obtain ⟨n, hn, rfl⟩ := Option.map_eq_some_iff.mp h
  obtain ⟨m, hm, rfl⟩ := kindOf_eq_ok.mp hkind
  rw [hn] at hm
  cases hm
  exact infer_gives ((hp.admitted hn).typed hcomposite)

/-- Negation, inversion and absolute value keep the kind. -/
theorem unary_resultKind?_same {op : UnaryOp}
    (hop : op = .neg ∨ op = .not ∨ op = .invert ∨ op = .abs) {k l : Kind}
    (h : op.resultKind? k = some l) : l = k := by
  rcases hop with rfl | rfl | rfl | rfl <;> cases k <;> cases h <;> rfl

theorem simplifyUnary_kind {p : Pool α} (hp : p.WellFormed) {op : UnaryOp} {x : ExprId}
    {kind : Kind} (h : p.Gives (.unary op x) kind) : p.Becomes kind (p.simplifyUnary op x) := by
  obtain ⟨a, ha, hresult⟩ := h
  -- A second negation or inversion leads back to the operand of the first.
  have hcancel : ∀ {y : ExprId}, p.form? x = some (.unary op y) →
      op = .neg ∨ op = .not ∨ op = .invert ∨ op = .abs → p.kindOf y = .ok kind := by
    intro y hy hop
    obtain ⟨c, hc, hinner⟩ := hp.form?_gives hy rfl ha
    rw [hc, unary_resultKind?_same hop hresult, unary_resultKind?_same hop hinner]
  unfold simplifyUnary
  split
  · next y hy => exact hcancel hy (by simp)
  · next y hy => exact hcancel hy (by simp)
  · next y hy => exact hcancel hy (by simp)
  · show p.kindOf x = .ok kind
    rw [unary_resultKind?_same (by simp) hresult]
    exact ha
  · trivial

/-- An operator that commutes gives the same kind both ways. -/
theorem resultKind?_comm {op : BinaryOp} {a b k l : Kind} (hcommutes : op.isCommutative a = true)
    (h : op.resultKind? a b = some k) (h' : op.resultKind? b a = some l) : l = k := by
  cases op with
  | add => cases a <;> cases b <;> simp_all [BinaryOp.resultKind?]
  | mul =>
      cases a <;> cases b <;>
        simp_all [BinaryOp.resultKind?, BinaryOp.isCommutative, Kind.isNumeric]
  | min => cases a <;> cases b <;> simp_all [BinaryOp.resultKind?]
  | max => cases a <;> cases b <;> simp_all [BinaryOp.resultKind?]
  | and => cases a <;> cases b <;> simp_all [BinaryOp.resultKind?]
  | or => cases a <;> cases b <;> simp_all [BinaryOp.resultKind?]
  | xor => cases a <;> cases b <;> simp_all [BinaryOp.resultKind?]
  | dot => cases a <;> cases b <;> simp_all [BinaryOp.resultKind?]
  | _ => cases hcommutes

/-- Sums and products that are numbers are made of numbers of their kind. -/
theorem resultKind?_numeric {op : BinaryOp} (hop : op = .add ∨ op = .mul) {a b k : Kind}
    (h : op.resultKind? a b = some k) (hnumeric : k.isNumeric = true) :
    a = k ∧ b = k ∧ op.resultKind? k k = some k := by
  have hk : k = .double ∨ k = .integer := by
    cases k <;> simp_all [Kind.isNumeric]
  rcases hop with rfl | rfl <;> rcases hk with rfl | rfl <;> cases a <;> cases b <;>
    first
    | exact ⟨rfl, rfl, rfl⟩
    | simp [BinaryOp.resultKind?] at h

/-- Two literals on the right of an operator are merged into one of their
kind. -/
theorem mergeLiterals_kind {p : Pool α} (hp : p.WellFormed) {op : BinaryOp}
    (hop : op = .add ∨ op = .mul) {x : ExprId} {c : Value α} {a kind : Kind}
    (hx : p.kindOf x = .ok a) (hresult : op.resultKind? a c.kind = some kind)
    (hnumeric : kind.isNumeric = true) : p.Becomes kind (p.mergeLiterals op x c) := by
  obtain ⟨rfl, hc, hself⟩ := resultKind?_numeric hop hresult hnumeric
  unfold mergeLiterals
  split
  · next inner y z hform =>
      split
      · next heq =>
          subst heq
          obtain ⟨b, d, hy, hz, hinner⟩ := hp.form?_gives hform rfl hx
          obtain ⟨rfl, rfl, -⟩ := resultKind?_numeric hop hinner hnumeric
          split
          · next merged hmerged =>
              obtain ⟨w, hw, heval⟩ := Option.bind_eq_some_iff.mp hmerged
              have hwkind := hp.literal_kind hw
              rw [hz] at hwkind
              refine ⟨_, hy, ?_⟩
              intro k hk
              have hmergedKind : inner.resultKind? w.kind c.kind = some merged.kind := by
                rcases inner.eval?_kind w c with hkind | ⟨m, n, hdiv, -⟩
                · rw [← hkind, heval]
                  rfl
                · rcases hop with rfl | rfl <;> cases hdiv
              rw [← Except.ok.inj hwkind, hc, hself] at hmergedKind
              rw [← Option.some.inj hmergedKind, hself] at hk
              exact (Option.some.inj hk).symm
          · trivial
      · trivial
  · trivial

/-- A number or a boolean on the right leaves the kind of the left operand. -/
theorem resultKind?_left {op : BinaryOp}
    (hop : op = .add ∨ op = .sub ∨ op = .mul ∨ op = .div ∨ op = .and ∨ op = .or ∨ op = .xor)
    {a b k : Kind} (hb : b = .double ∨ b = .integer ∨ b = .boolean)
    (h : op.resultKind? a b = some k) : k = a := by
  rcases hop with rfl | rfl | rfl | rfl | rfl | rfl | rfl <;> rcases hb with rfl | rfl | rfl <;>
    cases a <;> cases h <;> rfl

/-- A neutral literal on the right of an operator leaves an operand of the
kind of the result. -/
theorem simplifyRight_kind {p : Pool α} (hp : p.WellFormed) {op : BinaryOp} {x : ExprId}
    {c : Value α} {a kind : Kind} (hx : p.kindOf x = .ok a)
    (hresult : op.resultKind? a c.kind = some kind) :
    p.Becomes kind (p.simplifyRight op x c kind) := by
  have hleft : c.kind = .double ∨ c.kind = .integer ∨ c.kind = .boolean →
      op = .add ∨ op = .sub ∨ op = .mul ∨ op = .div ∨ op = .and ∨ op = .or ∨ op = .xor →
      p.kindOf x = .ok kind := by
    intro hkind hop
    rw [resultKind?_left hop hkind hresult]
    exact hx
  have hzero : c.isZero = true → c.kind = .double ∨ c.kind = .integer ∨ c.kind = .boolean := by
    cases c <;> simp [Value.isZero, Value.kind]
  have hone : c.isOne = true → c.kind = .double ∨ c.kind = .integer ∨ c.kind = .boolean := by
    cases c <;> simp [Value.isOne, Value.kind]
  unfold simplifyRight
  split
  · exact hleft (by simp [Value.kind]) (by simp)
  · show Kind.boolean = kind
    cases a <;> cases hresult
    rfl
  · exact hleft (by simp [Value.kind]) (by simp)
  · show Kind.boolean = kind
    cases a <;> cases hresult
    rfl
  · exact hleft (by simp [Value.kind]) (by simp)
  · split
    · next h => exact hleft (hzero h) (by simp)
    · split
      · next h => exact mergeLiterals_kind hp (Or.inl rfl) hx hresult h
      · trivial
  · split
    · next h => exact hleft (hzero h) (by simp)
    · trivial
  · split
    · next h => exact hleft (hone h) (by simp)
    · split
      · exact Value.kind_zero kind
      · split
        · next h => exact mergeLiterals_kind hp (Or.inr rfl) hx hresult h
        · trivial
  · split
    · next h => exact hleft (hone h) (by simp)
    · trivial
  · trivial

theorem simplifyBinary_kind {p : Pool α} (hp : p.WellFormed) {op : BinaryOp} {x y : ExprId}
    {kind : Kind} (h : p.Gives (.binary op x y) kind) :
    p.Becomes kind (p.simplifyBinary op x y kind) := by
  obtain ⟨a, b, hx, hy, hresult⟩ := h
  unfold simplifyBinary
  simp only
  split
  · split
    · next hcommutes =>
        intro k hk
        obtain ⟨b', a', hy', hx', hother⟩ := infer_gives hk
        rw [hx] at hx'
        cases hx'
        rw [hy] at hy'
        cases hy'
        obtain ⟨n, hn, rfl⟩ := kindOf_eq_ok.mp hx
        simp only [hn, Option.map_some, Option.getD_some] at hcommutes
        exact resultKind?_comm hcommutes hresult hother
    · trivial
  · next c _ hc =>
      have hckind := hp.literal_kind hc
      rw [hy] at hckind
      rw [Except.ok.inj hckind] at hresult
      exact simplifyRight_kind hp hx hresult
  · trivial

/-- The part at a position has the kind of an element. -/
theorem index_kind {p : Pool α} (hp : p.WellFormed) {x part : ExprId} {position : Nat}
    {kind : Kind} (h : p.Gives (.index x position) kind) {parts : List ExprId}
    (hform : p.form? x = some (.pack parts) ∨ p.form? x = some (.compose .vector parts))
    (hpart : parts[position]? = some part) : p.kindOf part = .ok kind := by
  obtain ⟨a, length, hx, hlength, hposition, helement⟩ := h
  rcases hform with hpack | hvector
  · obtain ⟨hdouble, rfl⟩ := hp.form?_gives hpack rfl hx
    cases helement
    exact hdouble part (List.mem_of_getElem? hpart)
  · obtain ⟨hparts, rfl⟩ := hp.form?_gives hvector rfl hx
    cases helement
    obtain ⟨k, hk, hpk⟩ := forall₂_exists_of_mem hparts (List.mem_of_getElem? hpart)
    have hdouble : k = .double := by simpa [Composite.parts] using hk
    rw [hpk, hdouble]

/-- **A simplification keeps the kind.** -/
theorem simplify_kind {p : Pool α} (hp : p.WellFormed) {form : Form α} {kind : Kind}
    (h : p.Gives form kind) : p.Becomes kind (p.simplify form kind) := by
  unfold simplify
  cases hliterals : p.evalLiterals? form with
  | some v => exact evalLiterals?_kind hp h hliterals
  | none =>
      cases form with
      | unary op x => exact simplifyUnary_kind hp h
      | binary op x y => exact simplifyBinary_kind hp h
      | select c t f =>
          obtain ⟨-, ht, hf⟩ := h
          simp only
          split
          · exact ht
          · exact hf
          · split
            · exact ht
            · trivial
      | smooth x tau =>
          obtain ⟨hx, rfl⟩ := h
          simp only
          split
          · exact hx
          · trivial
      | rateLimit x rate =>
          obtain ⟨hx, rfl, -⟩ := h
          simp only
          split
          · exact hx
          · trivial
      | edge x rising =>
          obtain ⟨-, rfl⟩ := h
          simp only
          split
          · rfl
          · trivial
      | index x position =>
          simp only
          split
          · next parts hform =>
              split
              · next part hpart => exact index_kind hp h (Or.inl hform) hpart
              · trivial
          · next parts hform =>
              split
              · next part hpart => exact index_kind hp h (Or.inr hform) hpart
              · trivial
          · trivial
      | _ => trivial

/-! ### Building -/

/-- A construction has led to a well-formed pool that extends the pool before,
and to an expression of the given kind. -/
structure Yields (p q : Pool α) (id : ExprId) (kind : Kind) : Prop where
  wellFormed : q.WellFormed
  «extends» : p.Extends q
  kind : q.kindOf id = .ok kind

/-- A construction that keeps pools well formed yields what it returns. -/
theorem Sound.yields {x : Building α ExprId} (hx : Sound x) {p q : Pool α}
    (hp : p.WellFormed) {id : ExprId} (h : x p = .ok id q) {kind : Kind}
    (hkind : q.kindOf id = .ok kind) : p.Yields q id kind := by
  obtain ⟨hq, hextends⟩ := hx.grown hp h
  exact ⟨hq, hextends, hkind⟩

/-- The expression for a node has the kind of the node. -/
theorem intern_kind {p q : Pool α} (hp : p.WellFormed) {n : Node α} {id : ExprId}
    (h : intern n p = .ok id q) : q.kindOf id = .ok n.kind := by
  obtain ⟨m, hm, hcanonical⟩ := intern_eq_ok hp h
  obtain ⟨-, hkind, -⟩ := canonical_eq_parts hcanonical
  exact kindOf_eq_ok.mpr ⟨m, hm, hkind⟩

theorem constant_yields {p q : Pool α} (hp : p.WellFormed) {v : Value α} {id : ExprId}
    (h : constant v p = .ok id q) : p.Yields q id v.kind :=
  (constant_sound v).yields hp h (intern_kind hp h)

theorem clock_yields {p q : Pool α} (hp : p.WellFormed) {signal : ClockSignal} {id : ExprId}
    (h : clock signal p = .ok id q) : p.Yields q id .double :=
  (clock_sound signal).yields hp h (intern_kind hp h)

theorem input_yields {p q : Pool α} (hp : p.WellFormed) {name : String} {kind : Kind}
    {scope : Scope} {id : ExprId} (h : input name kind scope p = .ok id q) :
    p.Yields q id kind :=
  (input_sound name kind scope).yields hp h (intern_kind hp h)

theorem placeholder_yields {p q : Pool α} (hp : p.WellFormed) {label : String} {kind : Kind}
    {scope : Scope} {id : ExprId} (h : placeholder label kind scope p = .ok id q) :
    p.Yields q id kind := by
  obtain ⟨_, _, hget, hafter⟩ := bind_eq_ok.mp h
  obtain ⟨rfl, rfl⟩ := get_eq_ok.mp hget
  obtain ⟨_, p₁, hset, hintern⟩ := bind_eq_ok.mp hafter
  cases hset
  exact (placeholder_sound label kind scope).yields hp h
    (intern_kind (grows_count p hp).1 hintern)

/-- What becomes of a form, with folding on or off, is of its kind. -/
theorem folded_kind {p : Pool α} (hp : p.WellFormed) {form : Form α} {kind : Kind}
    (hkind : p.infer form = .ok kind) :
    p.Becomes kind (if p.folding then p.simplify form kind else .keep) := by
  split
  · exact simplify_kind hp (infer_gives hkind)
  · trivial

/-- Building a form gives an expression of the kind of the form, however often
it is replaced by another one. -/
theorem buildWithin_kind {fuel : Nat} {form : Form α} {p q : Pool α} (hp : p.WellFormed)
    {id : ExprId} (h : buildWithin fuel form p = .ok id q) :
    ∃ kind, p.infer form = .ok kind ∧ q.kindOf id = .ok kind := by
  induction fuel using Nat.strongRecOn generalizing form p with
  | _ fuel ih =>
      obtain ⟨scope, kind, -, hkind, hsettle⟩ := buildWithin_settles h
      refine ⟨kind, hkind, ?_⟩
      have hbecomes := folded_kind hp hkind
      generalize (if p.folding then p.simplify form kind else .keep) = result at hsettle hbecomes
      cases result with
      | keep => exact intern_kind hp hsettle
      | existing old =>
          obtain ⟨rfl, rfl⟩ := pure_eq_ok.mp hsettle
          exact hbecomes
      | value v =>
          rw [← show v.kind = kind from hbecomes]
          exact (constant_yields hp hsettle).kind
      | instead other =>
          cases fuel with
          | zero => exact intern_kind hp hsettle
          | succ fuel =>
              obtain ⟨k, hk, hid⟩ := ih fuel (Nat.lt_succ_self _) hp hsettle
              rw [hid, hbecomes k hk]
      | merge op x c =>
          cases fuel with
          | zero => exact intern_kind hp hsettle
          | succ fuel =>
              obtain ⟨a, hx, hresult⟩ := hbecomes
              obtain ⟨d, p₁, hd, hbuild⟩ := bind_eq_ok.mp hsettle
              have hliteral := constant_yields hp hd
              obtain ⟨k, hk, hid⟩ := ih fuel (Nat.lt_succ_self _) hliteral.wellFormed hbuild
              obtain ⟨a', b', hx', hd', hk⟩ := infer_gives hk
              rw [hliteral.extends.kindOf hx] at hx'
              rw [hliteral.kind] at hd'
              cases hx'
              cases hd'
              rw [hid, hresult k hk]

/-- **A form that is built leads to an expression of its kind.** -/
theorem build_yields {p q : Pool α} (hp : p.WellFormed) {form : Form α} {id : ExprId}
    (h : build form p = .ok id q) : ∃ kind, p.Gives form kind ∧ p.Yields q id kind := by
  obtain ⟨_, _, hget, hbuild⟩ := bind_eq_ok.mp h
  obtain ⟨rfl, rfl⟩ := get_eq_ok.mp hget
  obtain ⟨kind, hkind, hid⟩ := buildWithin_kind hp hbuild
  exact ⟨kind, infer_gives hkind, (build_sound form).yields hp h hid⟩

end SignalNet.Pool
