import SignalNet.Proofs.Pool.Construction
import SignalNet.Proofs.Pool.Course
import SignalNet.Proofs.Pool.Joining

/-!
# What expressions inherit from their operands

Building an expression may return something else than a node of the form asked
for: an operand, a part of an operand, or a literal.  None of these brings in
anything new, so a property that literals have, and that composite expressions
share with their operands (`Pool.Inherited`), passes from the operands of a
form to what is built from it (`Pool.Inherited.build`).

Two such properties are used later: the scope of an expression lies around the
scopes of all that it reaches (`Pool.inherited_encloses`), and an expression
reaches the placeholders that its operands reach (`Pool.inherited_confined`).
A third one looks at a single cycle.  A delay hides its operand for the rest of
the cycle, so an expression *meets* a placeholder only if a path leads there
that no delay interrupts (`Pool.Meets`).
-/

namespace SignalNet

open Computing

variable {α : Type}

namespace Pool

/-! ### Reaching expressions -/

theorem Reaches.trans {p : Pool α} {a b c : ExprId} (hab : p.Reaches a b) (hbc : p.Reaches b c) :
    p.Reaches a c := by
  induction hbc with
  | root => exact hab
  | operand _ hn hd ih => exact .operand ih hn hd

/-- Operands come before the expressions that use them. -/
theorem Reaches.le [Scalar α] {p : Pool α} (hp : p.WellFormed) {root id : ExprId}
    (h : p.Reaches root id) : id ≤ root := by
  induction h with
  | root => exact Nat.le_refl root
  | operand _ hn hd ih => exact Nat.le_trans (Nat.le_of_lt (hp.before hn _ hd)) ih

/-- The first step of a path. -/
theorem Reaches.cases_root {p : Pool α} {a b : ExprId} (h : p.Reaches a b) :
    a = b ∨ ∃ n d, p.get? a = some n ∧ d ∈ n.dependencies ∧ p.Reaches d b := by
  induction h with
  | root => exact Or.inl rfl
  | @operand id d n _ hn hd ih =>
      rcases ih with rfl | ⟨m, e, hm, he, hreach⟩
      · exact Or.inr ⟨n, d, hn, hd, .root⟩
      · exact Or.inr ⟨m, e, hm, he, .operand hreach hn hd⟩

/-- Paths in a larger pool that start in the smaller one stay there. -/
theorem Reaches.of_extends [Scalar α] {p q : Pool α} (hp : p.WellFormed) (hq : p.Extends q)
    {root id : ExprId} (hroot : root < p.size) (h : q.Reaches root id) :
    p.Reaches root id ∧ id < p.size := by
  induction h with
  | root => exact ⟨.root, hroot⟩
  | @operand id d n _ hn hd ih =>
      obtain ⟨hreach, hid⟩ := ih
      rw [hq.get?_eq hid] at hn
      exact ⟨.operand hreach hn hd, Nat.lt_trans (hp.before hn d hd) hid⟩

/-! ### Meeting placeholders in a cycle -/

/-- The value of an expression depends on the value that a placeholder has in
the same cycle: the path to it goes through no delay. -/
inductive Meets (p : Pool α) : ExprId → ExprId → Prop
  | placeholder {id : ExprId} {n : Node α} {number : Nat} {label : String}
      (hn : p.get? id = some n) (hform : n.form = .placeholder number label) : Meets p id id
  | operand {id d x : ExprId} {n : Node α} (hn : p.get? id = some n)
      (hnow : ∀ y initial, n.form ≠ .pre y initial) (hd : d ∈ n.dependencies)
      (h : Meets p d x) : Meets p id x

/-- What is met is a placeholder, and is reached. -/
theorem Meets.reaches {p : Pool α} {id x : ExprId} (h : p.Meets id x) :
    p.Reaches id x ∧ ∃ n number label, p.get? x = some n ∧ n.form = .placeholder number label := by
  induction h with
  | placeholder hn hform => exact ⟨.root, _, _, _, hn, hform⟩
  | operand hn _ hd _ ih => exact ⟨(Reaches.root.operand hn hd).trans ih.1, ih.2⟩

/-! ### Inherited properties -/

section Inheriting

variable [Scalar α]

/-- A property that literals have, and that composite expressions share with
their operands.  Only expressions without memory have to hand it down. -/
structure Inherited (p : Pool α) (Q : ExprId → Prop) : Prop where
  literal : ∀ {id : ExprId} {n : Node α} {v : Value α}, p.get? id = some n →
    n.form = .constant v → Q id
  down : ∀ {id : ExprId} {n : Node α}, p.get? id = some n → n.form.isPure = true → Q id →
    ∀ d ∈ n.dependencies, Q d
  up : ∀ {id : ExprId} {n : Node α}, p.get? id = some n → n.form.isComposite = true →
    (∀ d ∈ n.dependencies, Q d) → Q id

/-- A simplification uses nothing but expressions with a property. -/
def Within (Q : ExprId → Prop) : Simplified α → Prop
  | .keep | .value _ => True
  | .existing id => Q id
  | .instead form => form.isComposite = true ∧ ∀ d ∈ form.dependencies, Q d
  | .merge _ x _ => Q x

omit [Scalar α] in
theorem form?_eq_some {p : Pool α} {id : ExprId} {form : Form α} (h : p.form? id = some form) :
    ∃ n, p.get? id = some n ∧ n.form = form :=
  Option.map_eq_some_iff.mp h

section Within

variable {p : Pool α} {Q : ExprId → Prop}
  (hdown : ∀ {id d : ExprId} {form : Form α}, p.form? id = some form → form.isPure = true →
    Q id → d ∈ form.dependencies → Q d)

include hdown

omit [Scalar α] in
/-- Two inversions cancel, and one absolute value suffices. -/
theorem simplifyUnary_within {op : UnaryOp} {x : ExprId} (hx : Q x) :
    Within Q (p.simplifyUnary op x) := by
  unfold simplifyUnary
  split
  · next y hform => exact hdown hform rfl hx (List.mem_singleton.mpr rfl)
  · next y hform => exact hdown hform rfl hx (List.mem_singleton.mpr rfl)
  · next y hform => exact hdown hform rfl hx (List.mem_singleton.mpr rfl)
  · exact hx
  · trivial

theorem mergeLiterals_within {op : BinaryOp} {x : ExprId} (hx : Q x) (c : Value α) :
    Within Q (p.mergeLiterals op x c) := by
  unfold mergeLiterals
  split
  · next inner y z hform =>
      split
      · split
        · exact hdown hform rfl hx List.mem_cons_self
        · trivial
      · trivial
  · trivial

theorem simplifyRight_within {op : BinaryOp} {x : ExprId} (hx : Q x) (c : Value α)
    (kind : Kind) : Within Q (p.simplifyRight op x c kind) := by
  have hmerge : ∀ op : BinaryOp, Within Q (p.mergeLiterals op x c) :=
    fun op => mergeLiterals_within hdown hx c
  unfold simplifyRight
  split
  · exact hx
  · trivial
  · exact hx
  · trivial
  · exact hx
  · split
    · exact hx
    · split
      · exact hmerge .add
      · trivial
  · split
    · exact hx
    · trivial
  · split
    · exact hx
    · split
      · trivial
      · split
        · exact hmerge .mul
        · trivial
  · split
    · exact hx
    · trivial
  · trivial

theorem simplifyBinary_within {op : BinaryOp} {x y : ExprId} (hx : Q x) (hy : Q y)
    (kind : Kind) : Within Q (p.simplifyBinary op x y kind) := by
  unfold simplifyBinary
  dsimp only
  split
  · split
    · refine ⟨rfl, ?_⟩
      intro d hd
      rcases List.mem_pair.mp hd with rfl | rfl
      · exact hy
      · exact hx
    · trivial
  · exact simplifyRight_within hdown hx _ kind
  · trivial

/-- **A simplification stays among the operands** and their parts. -/
theorem simplify_within {form : Form α} (hdeps : ∀ d ∈ form.dependencies, Q d)
    (kind : Kind) : Within Q (p.simplify form kind) := by
  unfold simplify
  cases p.evalLiterals? form with
  | some v => trivial
  | none =>
      cases form with
      | unary op x => exact simplifyUnary_within hdown (hdeps x (List.mem_singleton.mpr rfl))
      | binary op x y =>
          exact simplifyBinary_within hdown (hdeps x List.mem_cons_self)
            (hdeps y (List.mem_pair.mpr (Or.inr rfl))) kind
      | select c t f =>
          have ht : Q t := hdeps t (by simp [Form.dependencies])
          have hf : Q f := hdeps f (by simp [Form.dependencies])
          dsimp only
          split
          · exact ht
          · exact hf
          · split
            · exact ht
            · trivial
      | smooth x tau =>
          dsimp only
          split
          · exact hdeps x (List.mem_singleton.mpr rfl)
          · trivial
      | rateLimit x rate =>
          dsimp only
          split
          · exact hdeps x (List.mem_singleton.mpr rfl)
          · trivial
      | edge x rising =>
          dsimp only
          split <;> trivial
      | index x position =>
          have hx : Q x := hdeps x (List.mem_singleton.mpr rfl)
          -- What is picked out of a list of parts is one of them.
          have hpart : ∀ {parts : List ExprId} {form : Form α}, p.form? x = some form →
              (form.dependencies ≠ [] → form.isPure = true) → form.dependencies = parts →
              ∀ {part : ExprId}, parts[position]? = some part → Q part := by
            rintro _ form hform hpure rfl part hpart
            have hmem := List.mem_of_getElem? hpart
            exact hdown hform (hpure (List.ne_nil_of_mem hmem)) hx hmem
          have hpure : ∀ {parts : List ExprId}, parts ≠ [] →
              (Form.pack parts : Form α).isPure = true ∧
                (Form.compose .vector parts : Form α).isPure = true := by
            intro parts hne
            cases parts with
            | nil => exact absurd rfl hne
            | cons first rest => exact ⟨rfl, rfl⟩
          dsimp only
          split
          · next parts hform =>
              split
              · next part hget => exact hpart hform (fun hne => (hpure hne).1) rfl hget
              · trivial
          · next parts hform =>
              split
              · next part hget => exact hpart hform (fun hne => (hpure hne).2) rfl hget
              · trivial
          · trivial
      | _ => trivial

end Within

variable {Q : ExprId → Prop}

/-- A literal has every inherited property. -/
theorem Inherited.constant {p q r : Pool α} (hp : p.WellFormed) (hQ : r.Inherited Q)
    (hr : q.Extends r) {v : Value α} {id : ExprId} (h : Pool.constant v p = .ok id q) : Q id := by
  obtain ⟨m, hm, hcanonical⟩ := intern_eq_ok hp h
  have hform := (canonical_eq_parts hcanonical).1
  cases hm' : m.form with
  | constant w => exact hQ.literal (hr.get? hm) hm'
  | _ => simp [hm', Form.canonical] at hform

/-- A node has what its operands have. -/
theorem Inherited.intern {p q r : Pool α} (hp : p.WellFormed) (hQ : r.Inherited Q)
    (hr : q.Extends r) {n : Node α} {id : ExprId} (h : Pool.intern n p = .ok id q)
    (hcomposite : n.form.isComposite = true) (hdeps : ∀ d ∈ n.form.dependencies, Q d) : Q id := by
  obtain ⟨m, hm, hcanonical⟩ := intern_eq_ok hp h
  have hform := (canonical_eq_parts hcanonical).1
  refine hQ.up (hr.get? hm) ((Form.canonical_isComposite hform).trans hcomposite) ?_
  intro d hd
  rw [Node.dependencies, Form.canonical_dependencies hform] at hd
  exact hdeps d hd

theorem Inherited.buildWithin {fuel : Nat} {form : Form α} {p q r : Pool α} (hp : p.WellFormed)
    (hQ : r.Inherited Q) (hr : q.Extends r) (hcomposite : form.isComposite = true)
    (hdeps : ∀ d ∈ form.dependencies, Q d) {id : ExprId}
    (h : Pool.buildWithin fuel form p = .ok id q) : Q id := by
  induction fuel using Nat.strongRecOn generalizing form p with
  | _ fuel ih =>
      have hpq := ((buildWithin_sound fuel form).grown hp h).2
      have hdown : ∀ {id d : ExprId} {form : Form α}, p.form? id = some form →
          form.isPure = true → Q id → d ∈ form.dependencies → Q d := by
        intro id d form hform hpure hid hd
        obtain ⟨n, hn, rfl⟩ := form?_eq_some hform
        exact hQ.down (hr.get? (hpq.get? hn)) hpure hid d hd
      obtain ⟨scope, kind, -, -, hsettle⟩ := buildWithin_settles h
      have hwithin : Within Q (if p.folding then p.simplify form kind else .keep) := by
        split
        · exact simplify_within hdown hdeps kind
        · trivial
      generalize (if p.folding then p.simplify form kind else .keep) = result at hsettle hwithin
      cases result with
      | keep => exact hQ.intern hp hr hsettle hcomposite hdeps
      | existing j =>
          obtain ⟨rfl, -⟩ := pure_eq_ok.mp hsettle
          exact hwithin
      | value v => exact hQ.constant hp hr hsettle
      | instead other =>
          cases fuel with
          | zero => exact hQ.intern hp hr hsettle hcomposite hdeps
          | succ fuel => exact ih fuel (Nat.lt_succ_self _) hp hwithin.1 hwithin.2 hsettle
      | merge op x c =>
          cases fuel with
          | zero => exact hQ.intern hp hr hsettle hcomposite hdeps
          | succ fuel =>
              obtain ⟨d, p₁, hconstant, hrest⟩ := bind_eq_ok.mp hsettle
              obtain ⟨hp₁, -⟩ := (constant_sound c).grown hp hconstant
              obtain ⟨-, hp₁q⟩ := (buildWithin_sound fuel (.binary op x d)).grown hp₁ hrest
              have hd : Q d := hQ.constant hp (hp₁q.trans hr) hconstant
              refine ih fuel (Nat.lt_succ_self _) hp₁ rfl ?_ hrest
              intro e he
              rcases List.mem_pair.mp he with rfl | rfl
              · exact hwithin
              · exact hd

/-- **What is built has what its operands have**, also in later pools. -/
theorem Inherited.build {form : Form α} {p q r : Pool α} (hp : p.WellFormed)
    (hQ : r.Inherited Q) (hr : q.Extends r) (hcomposite : form.isComposite = true)
    (hdeps : ∀ d ∈ form.dependencies, Q d) {id : ExprId} (h : Pool.build form p = .ok id q) :
    Q id :=
  Inherited.buildWithin hp hQ hr hcomposite hdeps h

/-! ### Placeholders -/

omit [Scalar α] in
theorem isComposite_ne_placeholder {form : Form α} (h : form.isComposite = true) (number : Nat)
    (label : String) : form ≠ .placeholder number label := by
  rintro rfl
  cases h

/-- An expression reaches no placeholders but those of a list. -/
def Confined (p : Pool α) (targets : List ExprId) (id : ExprId) : Prop :=
  ∀ {x : ExprId} {n : Node α} {number : Nat} {label : String}, p.Reaches id x →
    p.get? x = some n → n.form = .placeholder number label → x ∈ targets

omit [Scalar α] in
theorem inherited_confined (p : Pool α) (targets : List ExprId) :
    p.Inherited (p.Confined targets) where
  literal := by
    intro id n v hn hform x m number label hreach hm hplaceholder
    rcases hreach.cases_root with rfl | ⟨n', d, hn', hd, -⟩
    · rw [hn] at hm
      cases hm
      simp [hform] at hplaceholder
    · rw [hn] at hn'
      cases hn'
      simp [Node.dependencies, hform, Form.dependencies] at hd
  down := by
    intro id n hn _ hid d hd x m number label hreach
    exact hid ((Reaches.root.operand hn hd).trans hreach)
  up := by
    intro id n hn hcomposite hdeps x m number label hreach hm hplaceholder
    rcases hreach.cases_root with rfl | ⟨n', d, hn', hd, hreach'⟩
    · rw [hn] at hm
      cases hm
      exact absurd hplaceholder (isComposite_ne_placeholder hcomposite _ _)
    · rw [hn] at hn'
      cases hn'
      exact hdeps d hd hreach' hm hplaceholder

omit [Scalar α] in
/-- The operands of a confined expression are confined. -/
theorem Confined.operand {p : Pool α} {targets : List ExprId} {id d : ExprId} {n : Node α}
    (h : p.Confined targets id) (hn : p.get? id = some n) (hd : d ∈ n.dependencies) :
    p.Confined targets d :=
  fun hreach => h ((Reaches.root.operand hn hd).trans hreach)

/-- An expression meets no placeholders but those of a list. -/
def MeetsOnly (p : Pool α) (targets : List ExprId) (id : ExprId) : Prop :=
  ∀ {x : ExprId}, p.Meets id x → x ∈ targets

omit [Scalar α] in
/-- What an expression does not reach it does not meet. -/
theorem Confined.meetsOnly {p : Pool α} {targets : List ExprId} {id : ExprId}
    (h : p.Confined targets id) : p.MeetsOnly targets id := by
  intro x hx
  obtain ⟨hreach, n, number, label, hn, hform⟩ := hx.reaches
  exact h hreach hn hform

omit [Scalar α] in
theorem inherited_meetsOnly (p : Pool α) (targets : List ExprId) :
    p.Inherited (p.MeetsOnly targets) where
  literal := by
    intro id n v hn hform x hx
    cases hx with
    | placeholder hm hplaceholder =>
        rw [hn] at hm
        cases hm
        simp [hform] at hplaceholder
    | operand hm _ hd _ =>
        rw [hn] at hm
        cases hm
        simp [Node.dependencies, hform, Form.dependencies] at hd
  down := by
    intro id n hn hpure hid d hd x hx
    refine hid (.operand hn ?_ hd hx)
    intro y initial hform
    simp [hform, Form.isPure, Form.isStateful] at hpure
  up := by
    intro id n hn hcomposite hdeps x hx
    cases hx with
    | placeholder hm hplaceholder =>
        rw [hn] at hm
        cases hm
        exact absurd hplaceholder (isComposite_ne_placeholder hcomposite _ _)
    | operand hm _ hd hmeets =>
        rw [hn] at hm
        cases hm
        exact hdeps _ hd hmeets

end Inheriting

/-! ### Scopes -/

/-- An expression has a scope that another scope encloses. -/
def Enclosed (p : Pool α) (scope : Scope) (id : ExprId) : Prop :=
  ∃ inner, p.scopeOf id = .ok inner ∧ scope.encloses inner = true

theorem scopeOf_eq_ok {p : Pool α} {id : ExprId} {scope : Scope} :
    p.scopeOf id = .ok scope ↔ ∃ n, p.get? id = some n ∧ n.scope = scope := by
  unfold scopeOf node
  cases p.get? id <;> simp [Except.map]

/-- A scope encloses a joined scope exactly if it encloses all that was
joined. -/
theorem enclosed_joinScopes {p : Pool α} {scope first joined : Scope} {ids : List ExprId}
    (h : p.joinScopes first ids = .ok joined) :
    scope.encloses joined = true ↔
      scope.encloses first = true ∧ ∀ d ∈ ids, p.Enclosed scope d := by
  induction ids generalizing first with
  | nil =>
      cases h
      simp
  | cons d rest ih =>
      unfold joinScopes at h
      cases hd : p.scopeOf d with
      | error e => simp [hd] at h
      | ok inner =>
          simp only [hd] at h
          split at h
          · next next hjoin =>
              have henclosed : p.Enclosed scope d ↔ scope.encloses inner = true := by
                simp [Enclosed, hd]
              rw [ih h, Scope.encloses_join hjoin, List.forall_mem_cons, henclosed, and_assoc]
          · cases h

/-- What a scope encloses it encloses in every later pool. -/
theorem Enclosed.extend {p q : Pool α} {scope : Scope} {id : ExprId} (h : p.Enclosed scope id)
    (hq : p.Extends q) : q.Enclosed scope id := by
  obtain ⟨inner, hinner, hencloses⟩ := h
  obtain ⟨n, hn, hscope⟩ := scopeOf_eq_ok.mp hinner
  exact ⟨inner, scopeOf_eq_ok.mpr ⟨n, hq.get? hn, hscope⟩, hencloses⟩

variable [Scalar α]

/-- Literals are global. -/
theorem WellFormed.literal_scope {p : Pool α} (hp : p.WellFormed) {id : ExprId} {v : Value α}
    (h : p.literal? id = some v) : p.scopeOf id = .ok .global := by
  obtain ⟨form, hform, hv⟩ := Option.bind_eq_some_iff.mp h
  obtain ⟨n, hn, rfl⟩ := form?_eq_some hform
  refine scopeOf_eq_ok.mpr ⟨n, hn, ?_⟩
  cases hconstant : n.form with
  | constant w =>
      have hleaf := (hp.admitted hn).leaf (by rw [hconstant]; rfl)
      simp only [Node.OfLeaf, hconstant] at hleaf
      exact hleaf.2
  | _ => simp [hconstant, Form.literal?] at hv

theorem inherited_enclosed {p : Pool α} (hp : p.WellFormed) (scope : Scope) :
    p.Inherited (p.Enclosed scope) where
  literal := by
    intro id n v hn hform
    have hliteral : p.literal? id = some v := by simp [literal?, form?, hn, hform, Form.literal?]
    exact ⟨.global, hp.literal_scope hliteral, scope.encloses_global⟩
  down := by
    intro id n hn hpure hid d hd
    obtain ⟨inner, hinner, hencloses⟩ := hid
    obtain ⟨n', hn', rfl⟩ := scopeOf_eq_ok.mp hinner
    rw [hn] at hn'
    cases hn'
    have hcomposite : n.form.isComposite = true := by
      cases hform : n.form <;>
        simp_all [Form.isPure, Form.isComposite, Form.isLeaf, Form.dependencies, Node.dependencies]
    exact ((enclosed_joinScopes ((hp.admitted hn).joined hcomposite)).mp hencloses).2 d hd
  up := by
    intro id n hn hcomposite hdeps
    refine ⟨n.scope, scopeOf_eq_ok.mpr ⟨n, hn, rfl⟩, ?_⟩
    exact (enclosed_joinScopes ((hp.admitted hn).joined hcomposite)).mpr
      ⟨scope.encloses_global, hdeps⟩

/-- **Scopes lie around what is reached.**  Where an expression may be used,
all that it reaches may be used. -/
theorem Enclosed.reaches {p : Pool α} (hp : p.WellFormed) {scope : Scope} {root id : ExprId}
    (h : p.Enclosed scope root) (hreach : p.Reaches root id) : p.Enclosed scope id := by
  induction hreach with
  | root => exact h
  | @operand id d n _ hn hd ih =>
      obtain ⟨inner, hinner, hencloses⟩ := ih
      obtain ⟨n', hn', rfl⟩ := scopeOf_eq_ok.mp hinner
      rw [hn] at hn'
      cases hn'
      have hcomposite : n.form.isComposite = true := by
        cases hform : n.form <;>
          simp_all [Form.isComposite, Form.dependencies, Node.dependencies]
        exact List.ne_nil_of_mem hd
      exact ((enclosed_joinScopes ((hp.admitted hn).joined hcomposite)).mp hencloses).2 d hd

end Pool

end SignalNet
