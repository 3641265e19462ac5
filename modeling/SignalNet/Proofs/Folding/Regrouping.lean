import SignalNet.Proofs.Folding.Script
import SignalNet.Proofs.Pool.Replacements

/-!
# Regrouping constants

Constants may be added to an integer, or multiplied with it, one after another
and on either side.  With folding on it makes no difference in which order that
happens: what results is the expression for one constant, their wrapping sum or
product.

Every integer is a *base* combined with one constant (`Pool.Combined`), where
the base does not end in a literal itself, or there is no base and the integer
is a literal.  The constant may be invisible, because it is neutral, or it may
have made the base vanish in a product with zero.

* `Pool.Normal.exists_combined` finds base and constant of an integer.
* `Pool.Combined.build` is the step: combining with another constant keeps the
  base and combines the constants.
* `Pool.Combined.unique` says that base and constant determine the expression.

`Pool.combine_regroups` puts them together.
-/

namespace SignalNet

open Computing

/-! ### Sums and products of integers -/

namespace BinaryOp

/-- What two integers come to: their wrapping product under multiplication,
their wrapping sum otherwise. -/
def merge : BinaryOp → Int64 → Int64 → Int64
  | mul, m, n => m * n
  | _, m, n => m + n

/-- The neutral integer. -/
def unit : BinaryOp → Int64
  | mul => 1
  | _ => 0

/-- What a list of integers comes to: their wrapping product under
multiplication, their wrapping sum otherwise. -/
def total (op : BinaryOp) (cs : List Int64) : Int64 :=
  cs.foldr op.merge op.unit

theorem merge_comm (op : BinaryOp) (m n : Int64) : op.merge m n = op.merge n m := by
  cases op with
  | mul => exact Int64.mul_comm m n
  | _ => exact Int64.add_comm m n

theorem merge_assoc (op : BinaryOp) (l m n : Int64) :
    op.merge (op.merge l m) n = op.merge l (op.merge m n) := by
  cases op with
  | mul => exact Int64.mul_assoc l m n
  | _ => exact Int64.add_assoc l m n

theorem merge_unit (op : BinaryOp) (m : Int64) : op.merge m op.unit = m := by
  cases op with
  | mul => exact Int64.mul_one m
  | _ => exact Int64.add_zero m

theorem unit_merge (op : BinaryOp) (m : Int64) : op.merge op.unit m = m := by
  rw [merge_comm, merge_unit]

instance (op : BinaryOp) : LeftCommutative op.merge where
  left_comm l m n := by rw [← merge_assoc, merge_comm op l m, merge_assoc]

/-- The order of a list does not matter. -/
theorem total_perm (op : BinaryOp) {cs cs' : List Int64} (h : cs.Perm cs') :
    op.total cs = op.total cs' :=
  h.foldr_eq op.unit

variable {α : Type} [Scalar α] {op : BinaryOp} (hop : op = .add ∨ op = .mul)

include hop

theorem eval?_integers (m n : Int64) :
    op.eval? (.integer m : Value α) (.integer n) = some (.integer (op.merge m n)) := by
  rcases hop with rfl | rfl <;> rfl

omit [Scalar α] in
theorem resultKind?_integers : op.resultKind? .integer .integer = some .integer := by
  rcases hop with rfl | rfl <;> rfl

end BinaryOp

namespace Pool

variable {α : Type} [Scalar α]

/-- The side on which a constant stands. -/
inductive Side
  | left
  | right
  deriving DecidableEq, Repr

/-- Combine an expression with an integer constant. -/
def attach (op : BinaryOp) (x : ExprId) : Side × Int64 → Building α ExprId
  | (.left, c) => do binary op (← constant (.integer c)) x
  | (.right, c) => do binary op x (← constant (.integer c))

/-- Combine an expression with integer constants, one after another. -/
def combine (op : BinaryOp) (cs : List (Side × Int64)) (x : ExprId) : Building α ExprId :=
  cs.foldlM (attach op) x

/-! ### Integers in pools -/

section Pools

variable {p : Pool α}

/-- A literal that is added. -/
theorem constant_integer (hp : p.Normal) (n : Int64) :
    ∃ d q, constant (.integer n) p = .ok d q ∧ q.Normal ∧ p.Extends q ∧
      q.literal? d = some (.integer n) := by
  obtain ⟨d, q, hd⟩ := intern_total ⟨.constant (.integer n), .integer, .global, true⟩ p
  have hd : constant (.integer n) p = .ok d q := hd
  have hq := constant_normalizes (.integer n) p hp
  rw [hd] at hq
  obtain ⟨m, hm, hform, -⟩ := intern_rigid hp.wellFormed hd rfl
  exact ⟨d, q, hd, hq.1, hq.2, by simp [literal?, form?, hm, hform, Form.literal?]⟩

variable {op : BinaryOp} (hop : op = .add ∨ op = .mul)

include hop

/-- What becomes of an operator on two literals. -/
theorem simplify_integers {x d : ExprId} {m c : Int64} (hx : p.literal? x = some (.integer m))
    (hd : p.literal? d = some (.integer c)) :
    p.simplify (.binary op x d) .integer = .value (.integer (op.merge m c)) := by
  have hliterals : p.evalLiterals? (.binary op x d) = some (.integer (op.merge m c)) := by
    simp [evalLiterals?, Form.isPure, Form.isLeaf, Form.isStateful, Form.dependencies,
      Form.eval?, hx, hd, op.eval?_integers hop]
  rw [simplify, hliterals]

/-- What becomes of an operator with a literal on its right only. -/
theorem simplify_integer {x d : ExprId} {c : Int64} (hx : p.literal? x = none)
    (hd : p.literal? d = some (.integer c)) :
    p.simplify (.binary op x d) .integer =
      if c = op.unit then .existing x
      else if op = .mul ∧ c = 0 then .value (.integer 0)
      else p.mergeLiterals op x (.integer c) := by
  have hliterals : p.evalLiterals? (.binary op x d) = none := by
    simp [evalLiterals?, Form.isPure, Form.isLeaf, Form.isStateful, Form.dependencies, hx]
  rw [simplify, hliterals]
  rcases hop with rfl | rfl
  · simp [simplifyBinary, hx, hd, simplifyRight, Value.isZero, Kind.isNumeric, BinaryOp.unit]
  · simp [simplifyBinary, hx, hd, simplifyRight, Value.isZero, Value.isOne, Kind.isNumeric,
      BinaryOp.unit, Value.zero]

/-- A literal on the left only moves to the right. -/
theorem simplify_left {x d : ExprId} {c : Int64} (hx : p.literal? x = none)
    (hkind : p.kindOf d = .ok .integer) (hd : p.literal? d = some (.integer c)) :
    p.simplify (.binary op d x) .integer = .instead (.binary op x d) := by
  have hliterals : p.evalLiterals? (.binary op d x) = none := by
    simp [evalLiterals?, Form.isPure, Form.isLeaf, Form.isStateful, Form.dependencies, hx, hd]
  obtain ⟨n, hn, hnkind⟩ := kindOf_eq_ok.mp hkind
  rw [simplify, hliterals]
  rcases hop with rfl | rfl <;>
    simp [simplifyBinary, hx, hd, hn, hnkind, BinaryOp.isCommutative, Kind.isNumeric]

theorem infer_integers {x y : ExprId} (hx : p.kindOf x = .ok .integer)
    (hy : p.kindOf y = .ok .integer) : p.infer (.binary op x y) = .ok .integer := by
  simp [infer, hx, hy, op.resultKind?_integers hop, fitting, bind, Except.bind]

end Pools

/-- Building an operator on integers. -/
theorem buildWithin_integers {p : Pool α} (hfolding : p.folding = true) {op : BinaryOp}
    (hop : op = .add ∨ op = .mul) {x y : ExprId} {scope : Scope}
    (hscope : p.joinScopes .global [x, y] = .ok scope) (hx : p.kindOf x = .ok .integer)
    (hy : p.kindOf y = .ok .integer) (fuel : Nat) :
    buildWithin fuel (.binary op x y) p =
      settle fuel ⟨.binary op x y, .integer, scope, p.staysConstant (.binary op x y)⟩
        (p.simplify (.binary op x y) .integer) p := by
  have hscope : p.joinScopes .global (Form.binary op x y : Form α).dependencies = .ok scope :=
    hscope
  rw [buildWithin_apply, hscope, infer_integers hop hx hy]
  dsimp only
  rw [if_pos hfolding]

/-! ### Bases and constants -/

/-- An integer that a constant can stand next to. -/
structure Base (p : Pool α) (op : BinaryOp) (y : ExprId) : Prop where
  isOpen : p.Open op y
  kind : p.kindOf y = .ok .integer

theorem Base.extend {p q : Pool α} {op : BinaryOp} {y : ExprId} (h : p.Base op y)
    (hp : p.WellFormed) (hq : p.Extends q) : q.Base op y := by
  obtain ⟨n, hn, -⟩ := kindOf_eq_ok.mp h.kind
  exact ⟨h.isOpen.extend hp hq (lt_size_of_get? hn), hq.kindOf h.kind⟩

/-- The integer `id` is `base` combined with the constant `m`, as folding leaves
it. -/
inductive Combined (p : Pool α) (op : BinaryOp) : Option ExprId → Int64 → ExprId → Prop
  /-- A literal has no base. -/
  | literal {id : ExprId} {m : Int64} (hid : p.literal? id = some (.integer m)) :
      Combined p op none m id
  /-- A neutral constant is left out. -/
  | plain {y : ExprId} (hy : p.Base op y) : Combined p op (some y) op.unit y
  /-- A product with zero is zero. -/
  | vanished {y id : ExprId} (hy : p.Base op y) (hop : op = .mul)
      (hid : p.literal? id = some (.integer 0)) : Combined p op (some y) 0 id
  /-- Any other constant stands on the right of the base. -/
  | ended {y z id : ExprId} {m : Int64} (hy : p.Base op y)
      (hform : p.form? id = some (.binary op y z)) (hz : p.literal? z = some (.integer m))
      (hunit : m ≠ op.unit) (hzero : ¬(op = .mul ∧ m = 0)) : Combined p op (some y) m id

omit [Scalar α] in
theorem Extends.form? {p q : Pool α} (h : p.Extends q) {id : ExprId} {form : Form α}
    (hform : p.form? id = some form) : q.form? id = some form := by
  obtain ⟨n, hn, rfl⟩ := form?_eq_some hform
  simp [Pool.form?, h.get? hn]

theorem Combined.extend {p q : Pool α} {op : BinaryOp} {base : Option ExprId} {m : Int64}
    {id : ExprId} (h : p.Combined op base m id) (hp : p.WellFormed) (hq : p.Extends q) :
    q.Combined op base m id := by
  cases h with
  | literal hid => exact .literal (hq.literal? hid)
  | plain hy => exact .plain (hy.extend hp hq)
  | vanished hy hop hid => exact .vanished (hy.extend hp hq) hop (hq.literal? hid)
  | ended hy hform hz hunit hzero =>
      exact .ended (hy.extend hp hq) (hq.form? hform) (hq.literal? hz) hunit hzero

/-- What is a literal stays one when it is combined with a constant. -/
theorem Combined.of_literal {p : Pool α} (hp : p.WellFormed) {op : BinaryOp}
    {base : Option ExprId} {m : Int64} {x : ExprId} (h : p.Combined op base m x) {w : Value α}
    (hx : p.literal? x = some w) :
    p.literal? x = some (.integer m) ∧ ∀ {q : Pool α} {id : ExprId} {c : Int64}, p.Extends q →
      q.literal? id = some (.integer (op.merge m c)) → q.Combined op base (op.merge m c) id := by
  cases h with
  | literal hid => exact ⟨hid, fun _ hid => .literal hid⟩
  | plain hy =>
      rw [hy.isOpen.literal] at hx
      cases hx
  | vanished hy hop hid =>
      refine ⟨hid, ?_⟩
      intro q id c hq hid
      have hzero : op.merge 0 c = 0 := by
        subst hop
        exact Int64.zero_mul
      rw [hzero] at hid ⊢
      exact .vanished (hy.extend hp hq) hop hid
  | ended hy hform => simp [literal?, hform, Form.literal?] at hx

/-- A construction leads to a normal pool and to `base` combined with `m`. -/
def ComesTo (p : Pool α) (op : BinaryOp) (base : Option ExprId) (m : Int64)
    (x : Building α ExprId) : Prop :=
  ∃ id q, x p = .ok id q ∧ q.Normal ∧ p.Extends q ∧ q.kindOf id = .ok .integer ∧
    q.Combined op base m id

section Steps

variable {p : Pool α} (hp : p.Normal) {op : BinaryOp}

include hp

theorem comesTo_constant {base : Option ExprId} {m : Int64}
    (h : ∀ {q : Pool α} {id : ExprId}, p.Extends q → q.literal? id = some (.integer m) →
      q.Combined op base m id) : p.ComesTo op base m (constant (.integer m)) := by
  obtain ⟨id, q, hrun, hq, hextends, hid⟩ := constant_integer hp m
  exact ⟨id, q, hrun, hq, hextends, hq.wellFormed.literal_kind hid, h hextends hid⟩

variable (hfolding : p.folding = true) (hop : op = .add ∨ op = .mul)

include hfolding hop

/-- **A constant next to a base** stands on its right, unless it is neutral or
makes the base vanish. -/
theorem Base.comesTo {y e : ExprId} (hy : p.Base op y) {t : Int64}
    (he : p.literal? e = some (.integer t)) (fuel : Nat) :
    p.ComesTo op (some y) t (buildWithin fuel (.binary op y e)) := by
  have hekind := hp.wellFormed.literal_kind he
  obtain ⟨scope, hscope⟩ := (joinScopes_literal hp.wellFormed hy.kind he).1
  have hrun := buildWithin_integers hfolding hop hscope hy.kind hekind fuel
  have hsimplify := simplify_integer hop hy.isOpen.literal he
  rw [hy.isOpen.mergeLiterals] at hsimplify
  rw [hsimplify] at hrun
  by_cases hunit : t = op.unit
  · rw [if_pos hunit] at hrun
    subst hunit
    exact ⟨y, p, hrun, hp, .refl p, hy.kind, .plain hy⟩
  rw [if_neg hunit] at hrun hsimplify
  by_cases hzero : op = .mul ∧ t = 0
  · rw [if_pos hzero] at hrun
    obtain ⟨hmul, rfl⟩ := hzero
    obtain ⟨id, q, hconstant, hrest⟩ := comesTo_constant hp fun hq hid =>
      .vanished (hy.extend hp.wellFormed hq) hmul hid
    exact ⟨id, q, hrun.trans hconstant, hrest⟩
  · rw [if_neg hzero] at hrun hsimplify
    have hq := intern_form_normalizes hscope (infer_integers hop hy.kind hekind)
      (fun _ => hsimplify) hp
    obtain ⟨id, q, hintern⟩ := intern_total
      ⟨.binary op y e, .integer, scope, p.staysConstant (.binary op y e)⟩ p
    rw [hintern] at hq
    obtain ⟨hnormal, hextends⟩ : q.Normal ∧ p.Extends q := hq
    obtain ⟨m, hm, hform, -⟩ := intern_rigid hp.wellFormed hintern trivial
    have hid : q.form? id = some (.binary op y e) := by simp [form?, hm, hform]
    exact ⟨id, q, hrun.trans hintern, hnormal, hextends, intern_kind hp.wellFormed hintern,
      .ended (hy.extend hp.wellFormed hextends) hid (hextends.literal? he) hunit hzero⟩

/-- An operator on two literals. -/
theorem comesTo_literals {x y : ExprId} {base : Option ExprId} {m n : Int64}
    (hx : p.literal? x = some (.integer m)) (hy : p.literal? y = some (.integer n)) (fuel : Nat)
    (h : ∀ {q : Pool α} {id : ExprId}, p.Extends q →
      q.literal? id = some (.integer (op.merge m n)) → q.Combined op base (op.merge m n) id) :
    p.ComesTo op base (op.merge m n) (buildWithin fuel (.binary op x y)) := by
  have hxkind := hp.wellFormed.literal_kind hx
  obtain ⟨scope, hscope⟩ := (joinScopes_literal hp.wellFormed hxkind hy).1
  have hrun :=
    buildWithin_integers hfolding hop hscope hxkind (hp.wellFormed.literal_kind hy) fuel
  rw [simplify_integers hop hx hy] at hrun
  obtain ⟨id, q, hconstant, hrest⟩ := comesTo_constant hp h
  exact ⟨id, q, hrun.trans hconstant, hrest⟩

/-- **A constant on the right** is combined with the one that is there. -/
theorem Combined.right {base : Option ExprId} {m : Int64} {x d : ExprId}
    (h : p.Combined op base m x) (hkind : p.kindOf x = .ok .integer) {c : Int64}
    (hd : p.literal? d = some (.integer c)) (fuel : Nat) :
    p.ComesTo op base (op.merge m c) (buildWithin (fuel + 1) (.binary op x d)) := by
  cases hx : p.literal? x with
  | some w =>
    obtain ⟨hm, hcombined⟩ := h.of_literal hp.wellFormed hx
    exact comesTo_literals hp hfolding hop hm hd _ hcombined
  | none =>
    cases h with
    | literal hid => simp [hid] at hx
    | vanished _ _ hid => simp [hid] at hx
    | plain hy =>
        rw [op.unit_merge]
        exact hy.comesTo hp hfolding hop hd _
    | @ended y z _ _ hy hform hz hunit hzero =>
        obtain ⟨scope, hscope⟩ := (joinScopes_literal hp.wellFormed hkind hd).1
        have hrun := buildWithin_integers hfolding hop hscope hkind
          (hp.wellFormed.literal_kind hd) (fuel + 1)
        have hmerge :
            p.mergeLiterals op x (.integer c) = .merge op y (.integer (op.merge m c)) := by
          simp [mergeLiterals, hform, hz, op.eval?_integers hop]
        rw [simplify_integer hop hx hd, hmerge] at hrun
        by_cases hunit' : c = op.unit
        · rw [if_pos hunit'] at hrun
          rw [hunit', op.merge_unit]
          exact ⟨x, p, hrun, hp, .refl p, hkind, .ended hy hform hz hunit hzero⟩
        rw [if_neg hunit'] at hrun
        by_cases hzero' : op = .mul ∧ c = 0
        · rw [if_pos hzero'] at hrun
          obtain ⟨rfl, rfl⟩ := hzero'
          rw [show BinaryOp.mul.merge m 0 = 0 from Int64.mul_zero]
          obtain ⟨id, q, hconstant, hrest⟩ := comesTo_constant hp fun hq hid =>
            .vanished (hy.extend hp.wellFormed hq) rfl hid
          exact ⟨id, q, hrun.trans hconstant, hrest⟩
        · -- The two constants merge, and the result stands next to the base.
          rw [if_neg hzero'] at hrun
          obtain ⟨e, p', he, hp', hextends, hliteral⟩ := constant_integer hp (op.merge m c)
          obtain ⟨id, q, hbuild, hq, hextends', hrest⟩ :=
            (hy.extend hp.wellFormed hextends).comesTo hp' (hextends.folding.trans hfolding) hop
              hliteral fuel
          refine ⟨id, q, ?_, hq, hextends.trans hextends', hrest⟩
          exact hrun.trans ((bind_of_ok he).trans hbuild)

/-- **A constant on the left** is combined like one on the right. -/
theorem Combined.left {base : Option ExprId} {m : Int64} {x d : ExprId}
    (h : p.Combined op base m x) (hkind : p.kindOf x = .ok .integer) {c : Int64}
    (hd : p.literal? d = some (.integer c)) (fuel : Nat) :
    p.ComesTo op base (op.merge m c) (buildWithin (fuel + 2) (.binary op d x)) := by
  cases hx : p.literal? x with
  | some w =>
    obtain ⟨hm, hcombined⟩ := h.of_literal hp.wellFormed hx
    rw [op.merge_comm m c]
    refine comesTo_literals hp hfolding hop hd hm _ fun hq hid => ?_
    rw [op.merge_comm c m] at hid ⊢
    exact hcombined hq hid
  | none =>
    have hdkind := hp.wellFormed.literal_kind hd
    obtain ⟨scope, hscope⟩ := (joinScopes_literal hp.wellFormed hkind hd).2
    have hrun := buildWithin_integers hfolding hop hscope hdkind hkind (fuel + 2)
    rw [simplify_left hop hx hdkind hd] at hrun
    obtain ⟨id, q, hbuild, hrest⟩ := h.right hp hfolding hop hkind hd fuel
    exact ⟨id, q, hrun.trans hbuild, hrest⟩

/-- **One more constant**, on either side. -/
theorem Combined.attach {base : Option ExprId} {m : Int64} {x : ExprId}
    (h : p.Combined op base m x) (hkind : p.kindOf x = .ok .integer) (c : Side × Int64) :
    p.ComesTo op base (op.merge m c.2) (attach op x c) := by
  obtain ⟨d, p', hd, hp', hextends, hliteral⟩ := constant_integer hp c.2
  have hx := h.extend hp.wellFormed hextends
  have hfolding' := hextends.folding.trans hfolding
  have hrest : p'.ComesTo op base (op.merge m c.2)
      (match c.1 with
      | .left => binary op d x
      | .right => binary op x d) := by
    obtain ⟨side, c⟩ := c
    cases side with
    | left => exact hx.left hp' hfolding' hop (hextends.kindOf hkind) hliteral p'.size
    | right => exact hx.right hp' hfolding' hop (hextends.kindOf hkind) hliteral (p'.size + 1)
  obtain ⟨id, q, hbuild, hq, hextends', hlast⟩ := hrest
  refine ⟨id, q, ?_, hq, hextends.trans hextends', hlast⟩
  obtain ⟨side, c⟩ := c
  cases side with
  | left => exact (bind_of_ok hd).trans hbuild
  | right => exact (bind_of_ok hd).trans hbuild

end Steps

/-- **All constants**, in whatever order they come. -/
theorem Combined.combine {p : Pool α} (hp : p.Normal) (hfolding : p.folding = true) {op : BinaryOp}
    (hop : op = .add ∨ op = .mul) {base : Option ExprId} {m : Int64} {x : ExprId}
    (h : p.Combined op base m x) (hkind : p.kindOf x = .ok .integer) (cs : List (Side × Int64)) :
    p.ComesTo op base (op.merge m (op.total (cs.map Prod.snd))) (combine op cs x) := by
  induction cs generalizing p m x with
  | nil =>
      show p.ComesTo op base (op.merge m op.unit) (pure x)
      rw [op.merge_unit]
      exact ⟨x, p, rfl, hp, .refl p, hkind, h⟩
  | cons c rest ih =>
      obtain ⟨y, p', hy, hp', hextends, hykind, hcombined⟩ := h.attach hp hfolding hop hkind c
      obtain ⟨id, q, hrest, hq, hextends', hidkind, hlast⟩ :=
        ih hp' (hextends.folding.trans hfolding) hcombined hykind
      rw [op.merge_assoc] at hlast
      refine ⟨id, q, ?_, hq, hextends.trans hextends', hidkind, hlast⟩
      rw [Pool.combine, List.foldlM_cons]
      exact (bind_of_ok hy).trans hrest

/-! ### Bases and constants determine expressions -/

/-- A composite node, and a literal, is determined by its form. -/
theorem WellFormed.eq_of_form? {p : Pool α} (hp : p.WellFormed) {i j : ExprId} {form : Form α}
    (hi : p.form? i = some form) (hj : p.form? j = some form)
    (hform : form.isComposite = true ∨ ∃ v, form = .constant v) : i = j := by
  obtain ⟨m, hm, hmform⟩ := form?_eq_some hi
  obtain ⟨n, hn, hnform⟩ := form?_eq_some hj
  subst hmform
  exact hp.eq_of_canonical hm hn (congrArg Form.canonical hnform.symm) hform

theorem WellFormed.eq_of_literal? {p : Pool α} (hp : p.WellFormed) {i j : ExprId} {v : Value α}
    (hi : p.literal? i = some v) (hj : p.literal? j = some v) : i = j := by
  have hform : ∀ {i : ExprId}, p.literal? i = some v → p.form? i = some (.constant v) := by
    intro i hi
    obtain ⟨form, hform, hv⟩ := Option.bind_eq_some_iff.mp hi
    cases form <;> simp_all [Form.literal?]
  exact hp.eq_of_form? (hform hi) (hform hj) (Or.inr ⟨v, rfl⟩)

/-- **Base and constant determine the expression.** -/
theorem Combined.unique {p : Pool α} (hp : p.WellFormed) {op : BinaryOp} {base : Option ExprId}
    {m m' : Int64} {id id' : ExprId} (h : p.Combined op base m id)
    (h' : p.Combined op base m' id') (hm : m = m') : id = id' := by
  have hone : BinaryOp.mul.unit ≠ 0 := by decide
  cases h with
  | literal hid =>
      cases h' with
      | literal hid' => exact hp.eq_of_literal? hid (hm ▸ hid')
  | plain hy =>
      cases h' with
      | plain => rfl
      | vanished _ hop _ => exact absurd (hop ▸ hm) hone
      | ended _ _ _ hunit _ => exact absurd hm.symm hunit
  | vanished hy hop hid =>
      cases h' with
      | plain => exact absurd (hop ▸ hm.symm) hone
      | vanished _ _ hid' => exact hp.eq_of_literal? hid hid'
      | ended _ _ _ _ hzero => exact absurd ⟨hop, hm.symm⟩ hzero
  | ended hy hform hz hunit hzero =>
      cases h' with
      | plain => exact absurd hm hunit
      | vanished _ hop _ => exact absurd ⟨hop, hm⟩ hzero
      | ended _ hform' hz' _ _ =>
          subst hm
          obtain rfl := hp.eq_of_literal? hz hz'
          exact hp.eq_of_form? hform hform' (Or.inl rfl)

/-- **Every integer is a base combined with a constant**, or a literal. -/
theorem Normal.exists_combined {p : Pool α} (hp : p.Normal) (hfolding : p.folding = true)
    {op : BinaryOp} (hop : op = .add ∨ op = .mul) {x : ExprId} (hkind : p.kindOf x = .ok .integer) :
    ∃ base m, p.Combined op base m x := by
  have hinteger : ∀ {i : ExprId} {c : Value α}, p.literal? i = some c → p.kindOf i = .ok .integer →
      ∃ m, c = .integer m := by
    intro i c hc hi
    have hckind := Except.ok.inj ((hp.wellFormed.literal_kind hc).symm.trans hi)
    cases c <;> cases hckind
    exact ⟨_, rfl⟩
  cases hx : p.literal? x with
  | some c =>
      obtain ⟨m, rfl⟩ := hinteger hx hkind
      exact ⟨none, m, .literal hx⟩
  | none =>
      by_cases hends : ∃ y z c, p.form? x = some (.binary op y z) ∧ p.literal? z = some c
      · obtain ⟨y, z, c, hform, hz⟩ := hends
        have hopen := hp.open hfolding hop hform hz hkind rfl
        obtain ⟨a, b, hy, hb, hresult⟩ := hp.wellFormed.form?_gives hform rfl hkind
        obtain ⟨rfl, rfl, -⟩ := resultKind?_numeric hop hresult rfl
        obtain ⟨m, rfl⟩ := hinteger hz hb
        -- The constant would not stand there if it were neutral or zero.
        obtain ⟨n, hn, hnform⟩ := form?_eq_some hform
        obtain ⟨n', hn', hnkind⟩ := kindOf_eq_ok.mp hkind
        rw [hn] at hn'
        cases hn'
        have hkept := hp.reduced hfolding hn (by rw [hnform]; rfl)
        rw [hnform, hnkind, simplify_integer hop hopen.literal hz] at hkept
        refine ⟨some y, m, .ended ⟨hopen, hy⟩ hform hz ?_ ?_⟩
        · intro hunit
          rw [if_pos hunit] at hkept
          cases hkept
        · intro hzero
          rw [if_pos hzero] at hkept
          split at hkept <;> cases hkept
      · refine ⟨some x, op.unit, .plain ⟨⟨hx, ?_⟩, hkind⟩⟩
        intro y z hform
        cases hz : p.literal? z with
        | none => rfl
        | some c => exact absurd ⟨y, z, c, hform, hz⟩ hends

/-- **Constants regroup.**  Let folding be on in a pool that calls lead to, and
combine an integer with constants, all by addition or all by multiplication,
each on either side.  Then what results is what combining with their wrapping
sum or product gives in the pool that is left, and what the same constants give
there in any other order and on other sides. -/
theorem combine_regroups {p : Pool α} (hp : p.Reachable) (hfolding : p.folding = true)
    {op : BinaryOp} (hop : op = .add ∨ op = .mul) {x : ExprId} (hx : p.kindOf x = .ok .integer)
    (cs : List (Side × Int64)) :
    ∃ id q, combine op cs x p = .ok id q ∧
      (∃ q', (constant (.integer (op.total (cs.map Prod.snd))) >>= binary op x) q = .ok id q') ∧
      ∀ cs', (cs'.map Prod.snd).Perm (cs.map Prod.snd) → ∃ q', combine op cs' x q = .ok id q' := by
  obtain ⟨base, m, hcombined⟩ := hp.normal.exists_combined hfolding hop hx
  obtain ⟨id, q, hrun, hq, hextends, -, hid⟩ := hcombined.combine hp.normal hfolding hop hx cs
  have hx' := hextends.kindOf hx
  have hfolding' := hextends.folding.trans hfolding
  have hcombined' := hcombined.extend hp.wellFormed hextends
  refine ⟨id, q, hrun, ?_, ?_⟩
  · obtain ⟨id', q', hrun', hq', hextends', -, hid'⟩ :=
      hcombined'.attach hq hfolding' hop hx' (.right, op.total (cs.map Prod.snd))
    obtain rfl := (hid.extend hq.wellFormed hextends').unique hq'.wellFormed hid' rfl
    exact ⟨q', hrun'⟩
  · intro cs' hperm
    obtain ⟨id', q', hrun', hq', hextends', -, hid'⟩ :=
      hcombined'.combine hq hfolding' hop hx' cs'
    rw [op.total_perm hperm] at hid'
    obtain rfl := (hid.extend hq.wellFormed hextends').unique hq'.wellFormed hid' rfl
    exact ⟨q', hrun'⟩

/-- The largest integer on the left, one on the right, the least integer and
seven on the left.  The first three come to zero. -/
def Sample.nudges : List (Side × Int64) :=
  [(.left, Int64.maxValue), (.right, 1), (.left, Int64.minValue), (.left, 7)]

theorem nudges_regroup :
    let p : Pool Float := performAll [.sensor "n" .integer] { folding := true }
    ∃ id q q' q'', combine .add Sample.nudges 0 p = .ok id q ∧
      (constant (.integer 7) >>= binary .add 0) q = .ok id q' ∧
      combine .add (Sample.nudges.reverse.map fun c => (.right, c.2)) 0 q = .ok id q'' := by
  intro p
  have hadd : BinaryOp.add = .add ∨ BinaryOp.add = .mul := Or.inl rfl
  have hx : p.kindOf 0 = .ok .integer := by decide +kernel
  obtain ⟨id, q, hrun, ⟨q', hsum⟩, hperm⟩ :=
    combine_regroups ⟨true, _, rfl⟩ rfl hadd hx Sample.nudges
  obtain ⟨q'', hagain⟩ := hperm (Sample.nudges.reverse.map fun c => (.right, c.2)) (by decide)
  exact ⟨id, q, q', q'', hrun, hsum, hagain⟩

end Pool

end SignalNet
