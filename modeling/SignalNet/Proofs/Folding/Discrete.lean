import SignalNet.Proofs.Pool.Kinds
import SignalNet.Proofs.Scalar.Sign

/-!
# Integers and booleans

Folding rewrites expressions by the laws of arithmetic and logic.  On integers
and booleans the laws hold exactly: integers wrap around, so addition and
multiplication stay associative, and two of them that are structurally equal
are the same.

* The first part holds the laws, as facts about `eval?`.  An operand whose
  value is not the one that the law expects makes both sides fail, so most
  laws need to know one operand only.
* The second part follows pools in which all kinds are discrete
  (`Pool.Discrete`) through constructions.
-/

namespace SignalNet

open Computing

/-- The kinds of integers and booleans. -/
def Kind.isDiscrete : Kind → Bool
  | .integer | .boolean => true
  | _ => false

/-- Operators that stay among integers and booleans. -/
def UnaryOp.isDiscrete : UnaryOp → Bool
  | .neg | .abs | .not => true
  | _ => false

/-- Operators that stay among integers and booleans. -/
def BinaryOp.isDiscrete : BinaryOp → Bool
  | .add | .sub | .mul | .div | .min | .max | .and | .or | .xor => true
  | _ => false

section Values

variable {α : Type}

theorem Value.discrete_cases {v : Value α} (h : v.kind.isDiscrete = true) :
    (∃ n, v = .integer n) ∨ ∃ b, v = .boolean b := by
  cases v with
  | integer n => exact Or.inl ⟨n, rfl⟩
  | boolean b => exact Or.inr ⟨b, rfl⟩
  | _ => cases h

variable [Scalar α]

/-- Structurally equal integers and booleans are the same. -/
theorem Value.eq_of_canonical_eq {v w : Value α} (hv : v.kind.isDiscrete = true)
    (h : w.canonical = v.canonical) : w = v := by
  rcases Value.discrete_cases hv with ⟨n, rfl⟩ | ⟨b, rfl⟩
  · cases w <;> simp_all [Value.canonical, Value.map]
  · cases w <;> simp_all [Value.canonical, Value.map]

theorem Value.isZero_eq {v : Value α} (hv : v.kind.isDiscrete = true) (h : v.isZero = true) :
    v = .integer 0 := by
  rcases Value.discrete_cases hv with ⟨n, rfl⟩ | ⟨b, rfl⟩
  · have hn : n = 0 := by simpa [Value.isZero] using h
    rw [hn]
  · cases h

theorem Value.isOne_eq {v : Value α} (hv : v.kind.isDiscrete = true) (h : v.isOne = true) :
    v = .integer 1 := by
  rcases Value.discrete_cases hv with ⟨n, rfl⟩ | ⟨b, rfl⟩
  · have hn : n = 1 := by simpa [Value.isOne] using h
    rw [hn]
  · cases h

end Values

/-! ### Laws of integers -/

theorem Int64.min_comm (m n : Int64) : min m n = min n m := by
  show (if m ≤ n then m else n) = if n ≤ m then n else m
  grind

theorem Int64.max_comm (m n : Int64) : max m n = max n m := by
  show (if m ≤ n then n else m) = if n ≤ m then m else n
  grind

/-- The least integer is its own absolute value. -/
theorem Int64.abs_abs (n : Int64) : n.abs.abs = n.abs := by
  have habs : ∀ a : BitVec 64, a.abs.abs = a.abs := by
    intro a
    by_cases ha : a.msb = true
    · have hneg : a.abs = -a := if_pos ha
      by_cases hmin : a = BitVec.intMin 64
      · rw [hmin]
        decide
      · have hzero : a ≠ 0#64 := by
          rintro rfl
          simp at ha
        have hmsb : (-a).msb = false := by
          rw [BitVec.msb_neg, ha]
          simp [hmin, hzero]
        rw [hneg]
        exact if_neg (by simp [hmsb])
    · have hsame : a.abs = a := if_neg ha
      rw [hsame, hsame]
  show Int64.ofBitVec n.toBitVec.abs.abs = Int64.ofBitVec n.toBitVec.abs
  rw [habs]

/-! ### Laws of operators -/

section Laws

variable {α : Type} [Scalar α]

theorem UnaryOp.neg_neg (hlaws : Scalar.SignLaws α) {u v w : Value α}
    (hw : UnaryOp.neg.eval? u = some w) (hv : UnaryOp.neg.eval? w = some v) : v = u := by
  cases u <;> simp only [UnaryOp.eval?, Option.some.injEq, reduceCtorEq] at hw
  all_goals
    subst hw
    simp only [UnaryOp.eval?, Option.some.injEq] at hv
    subst hv
  case double x => rw [hlaws.neg_neg]
  case integer n => rw [Int64.neg_neg]
  case array xs =>
    rw [List.map_map]
    congr 1
    exact List.map_id'' (fun x => hlaws.neg_neg x) xs
  case vector v => simp only [Vec3.neg, hlaws.neg_neg]

theorem UnaryOp.not_not {u v w : Value α} (hw : UnaryOp.not.eval? u = some w)
    (hv : UnaryOp.not.eval? w = some v) : v = u := by
  cases u <;> simp only [UnaryOp.eval?, Option.some.injEq, reduceCtorEq] at hw
  subst hw
  simp only [UnaryOp.eval?, Option.some.injEq, Bool.not_not] at hv
  exact hv.symm

theorem UnaryOp.abs_abs (hlaws : Scalar.SignLaws α) {u v w : Value α}
    (hw : UnaryOp.abs.eval? u = some w) (hv : UnaryOp.abs.eval? w = some v) : v = w := by
  cases u <;> simp only [UnaryOp.eval?, Option.some.injEq, reduceCtorEq] at hw
  all_goals
    subst hw
    simp only [UnaryOp.eval?, Option.some.injEq] at hv
    subst hv
  case double x => rw [hlaws.abs_abs]
  case integer n => rw [Int64.abs_abs]

/-- An integer or a boolean may change sides. -/
theorem BinaryOp.eval?_comm {op : BinaryOp} {kind : Kind}
    (hcommutes : op.isCommutative kind = true) {c : Value α} (hc : c.kind.isDiscrete = true)
    (v : Value α) : op.eval? c v = op.eval? v c := by
  rcases Value.discrete_cases hc with ⟨m, rfl⟩ | ⟨a, rfl⟩
  · cases op with
    | add =>
        cases v with
        | integer n => exact congrArg (fun k => some (Value.integer k)) (Int64.add_comm m n)
        | _ => rfl
    | mul =>
        cases v with
        | integer n => exact congrArg (fun k => some (Value.integer k)) (Int64.mul_comm m n)
        | _ => rfl
    | min =>
        cases v with
        | integer n => exact congrArg (fun k => some (Value.integer k)) (Int64.min_comm m n)
        | _ => rfl
    | max =>
        cases v with
        | integer n => exact congrArg (fun k => some (Value.integer k)) (Int64.max_comm m n)
        | _ => rfl
    | sub => cases hcommutes
    | div => cases hcommutes
    | _ => cases v <;> rfl
  · cases op with
    | and =>
        cases v with
        | boolean b => exact congrArg (fun k => some (Value.boolean k)) (Bool.and_comm a b)
        | _ => rfl
    | or =>
        cases v with
        | boolean b => exact congrArg (fun k => some (Value.boolean k)) (Bool.or_comm a b)
        | _ => rfl
    | xor =>
        cases v with
        | boolean b => exact congrArg (fun k => some (Value.boolean k)) (Bool.xor_comm a b)
        | _ => rfl
    | _ => cases v <;> rfl

/-- Sums and products with an integer are sums and products of integers. -/
theorem BinaryOp.eval?_integer {op : BinaryOp} (hop : op = .add ∨ op = .mul) {u v : Value α}
    {n : Int64} (h : op.eval? u (.integer n) = some v) :
    ∃ m, u = .integer m ∧ v = .integer (if op = .add then m + n else m * n) := by
  rcases hop with rfl | rfl
  · cases u <;> simp only [BinaryOp.eval?, Option.some.injEq, reduceCtorEq] at h
    exact ⟨_, rfl, h.symm⟩
  · cases u <;> simp only [BinaryOp.eval?, Option.some.injEq, reduceCtorEq] at h
    exact ⟨_, rfl, h.symm⟩

/-- Two literals on the right come to one. -/
theorem BinaryOp.eval?_assoc {op : BinaryOp} (hop : op = .add ∨ op = .mul)
    {a b u v w merged : Value α} (hb : b.kind.isDiscrete = true) (hw : op.eval? u a = some w)
    (hv : op.eval? w b = some v) (hmerged : op.eval? a b = some merged) :
    op.eval? u merged = some v := by
  rcases Value.discrete_cases hb with ⟨n, rfl⟩ | ⟨c, rfl⟩
  · obtain ⟨m, rfl, rfl⟩ := BinaryOp.eval?_integer hop hmerged
    obtain ⟨l, rfl, rfl⟩ := BinaryOp.eval?_integer hop hw
    obtain ⟨k, hk, rfl⟩ := BinaryOp.eval?_integer hop hv
    cases hk
    rcases hop with rfl | rfl
    · exact congrArg (fun n => some (Value.integer n)) (Int64.add_assoc l m n).symm
    · exact congrArg (fun n => some (Value.integer n)) (Int64.mul_assoc l m n).symm
  · rcases hop with rfl | rfl <;> cases a <;> cases hmerged

/-- Zero and one are neutral on the right where folding says so. -/
theorem BinaryOp.eval?_neutral {op : BinaryOp} {u v c : Value α}
    (hc : (op = .add ∨ op = .sub) ∧ c = .integer 0 ∨ (op = .mul ∨ op = .div) ∧ c = .integer 1 ∨
      op = .and ∧ c = .boolean true ∨ (op = .or ∨ op = .xor) ∧ c = .boolean false)
    (h : op.eval? u c = some v) : v = u := by
  have hquotient : ∀ n : Int64, quotient? n 1 = some n := by
    intro n
    unfold quotient?
    rw [if_neg (by simp), Int64.div_one]
  rcases hc with ⟨rfl | rfl, rfl⟩ | ⟨rfl | rfl, rfl⟩ | ⟨rfl, rfl⟩ | ⟨rfl | rfl, rfl⟩
  all_goals cases u <;> simp only [BinaryOp.eval?, reduceCtorEq] at h
  all_goals simp_all

end Laws

/-! ### Pools of integers and booleans -/

/-- A form that stays among integers and booleans if its operands do. -/
def Form.isDiscrete {α : Type} : Form α → Bool
  | .constant _ | .sensor _ _ | .input _ | .compare _ _ _ | .select _ _ _ | .limit _ _ _
  | .pre _ _ | .edge _ _ => true
  | .unary op _ => op.isDiscrete
  | .binary op _ _ => op.isDiscrete
  | _ => false

theorem UnaryOp.resultKind?_discrete {op : UnaryOp} (hop : op.isDiscrete = true) {a k : Kind}
    (ha : a.isDiscrete = true) (h : op.resultKind? a = some k) : k.isDiscrete = true := by
  cases a <;> cases ha <;> cases op <;> cases hop <;> cases h <;> rfl

theorem BinaryOp.resultKind?_discrete {op : BinaryOp} (hop : op.isDiscrete = true) {a b k : Kind}
    (ha : a.isDiscrete = true) (hb : b.isDiscrete = true) (h : op.resultKind? a b = some k) :
    k.isDiscrete = true := by
  cases a <;> cases ha <;> cases b <;> cases hb <;> cases op <;> cases hop <;> cases h <;> rfl

theorem CompareOp.resultKind?_discrete {op : CompareOp} {a b k : Kind}
    (h : op.resultKind? a b = some k) : k.isDiscrete = true := by
  cases op <;> cases a <;> cases b <;> cases h <;> rfl

namespace Pool

variable {α : Type} [Scalar α]

omit [Scalar α] in
/-- All expressions of the pool are integers or booleans, and computed by
operators on such. -/
structure Discrete (p : Pool α) : Prop where
  form : ∀ {id : ExprId} {n : Node α}, p.get? id = some n → n.form.isDiscrete = true
  kind : ∀ {id : ExprId} {n : Node α}, p.get? id = some n → n.kind.isDiscrete = true

omit [Scalar α] in
theorem discrete_empty (folding : Bool) : ({ folding } : Pool α).Discrete where
  form hn := by simp [get?] at hn
  kind hn := by simp [get?] at hn

omit [Scalar α] in
theorem Discrete.kindOf {p : Pool α} (h : p.Discrete) {id : ExprId} {kind : Kind}
    (hkind : p.kindOf id = .ok kind) : kind.isDiscrete = true := by
  obtain ⟨n, hn, rfl⟩ := kindOf_eq_ok.mp hkind
  exact h.kind hn

theorem Discrete.literal {p : Pool α} (h : p.Discrete) (hp : p.WellFormed) {id : ExprId}
    {c : Value α} (hc : p.literal? id = some c) : c.kind.isDiscrete = true :=
  h.kindOf (hp.literal_kind hc)

/-- The kind of a form on integers and booleans. -/
theorem Discrete.gives {p : Pool α} (h : p.Discrete) {form : Form α} {kind : Kind}
    (hform : form.isDiscrete = true) (hkind : p.Gives form kind) : kind.isDiscrete = true := by
  cases form with
  | unary op x =>
      obtain ⟨a, hx, hresult⟩ := hkind
      exact UnaryOp.resultKind?_discrete hform (h.kindOf hx) hresult
  | binary op x y =>
      obtain ⟨a, b, hx, hy, hresult⟩ := hkind
      exact BinaryOp.resultKind?_discrete hform (h.kindOf hx) (h.kindOf hy) hresult
  | compare op x y =>
      obtain ⟨a, b, -, -, hresult⟩ := hkind
      exact CompareOp.resultKind?_discrete hresult
  | select c t f => exact h.kindOf hkind.2.1
  | limit x lo hi => exact h.kindOf hkind.1
  | pre x initial => exact h.kindOf hkind.1
  | edge x rising =>
      obtain ⟨-, rfl⟩ := hkind
      rfl
  | constant v => cases hkind
  | sensor name device => cases hkind
  | input name => cases hkind
  | _ => cases hform

theorem Discrete.intern {p q : Pool α} (h : p.Discrete) {n : Node α} {id : ExprId}
    (hintern : intern n p = .ok id q) (hform : n.form.isDiscrete = true)
    (hkind : n.kind.isDiscrete = true) : q.Discrete := by
  unfold Pool.intern at hintern
  cases hfind : p.find? n with
  | some i =>
      rw [hfind] at hintern
      cases hintern
      exact h
  | none =>
      rw [hfind] at hintern
      cases hintern
      constructor
      · intro j m hm
        rcases get?_push_cases hm with hold | ⟨rfl, rfl⟩
        · exact h.form hold
        · exact hform
      · intro j m hm
        rcases get?_push_cases hm with hold | ⟨rfl, rfl⟩
        · exact h.kind hold
        · exact hkind

theorem Discrete.constant {p q : Pool α} (h : p.Discrete) {c : Value α} {id : ExprId}
    (hc : c.kind.isDiscrete = true) (hconstant : constant c p = .ok id q) : q.Discrete :=
  h.intern hconstant rfl hc

/-- The values inside a form are integers or booleans. -/
def Rigid : Form α → Prop
  | .constant v => v.kind.isDiscrete = true
  | .pre _ initial => initial.kind.isDiscrete = true
  | _ => True

/-- Structurally equal forms of integers and booleans are the same. -/
theorem eq_of_canonical_eq {form form' : Form α} (hrigid : Rigid form)
    (h : form'.canonical = form.canonical) : form' = form := by
  cases form with
  | constant v =>
      cases form' <;> simp only [Form.canonical, Form.constant.injEq, reduceCtorEq] at h
      rw [Value.eq_of_canonical_eq hrigid h]
  | pre x initial =>
      cases form' <;> simp only [Form.canonical, Form.pre.injEq, reduceCtorEq] at h
      rw [h.1, Value.eq_of_canonical_eq hrigid h.2]
  | _ => cases form' <;> simp_all [Form.canonical]

/-- Interning a form of integers and booleans finds the form itself. -/
theorem intern_rigid {p q : Pool α} (hp : p.WellFormed) {n : Node α} {id : ExprId}
    (h : intern n p = .ok id q) (hrigid : Rigid n.form) :
    ∃ m, q.get? id = some m ∧ m.form = n.form ∧ m.kind = n.kind := by
  obtain ⟨m, hm, hcanonical⟩ := intern_eq_ok hp h
  obtain ⟨hform, hkind, -⟩ := canonical_eq_parts hcanonical
  exact ⟨m, hm, eq_of_canonical_eq hrigid hform, hkind⟩

/-- A delay starts with a value of the kind of its input. -/
theorem Discrete.rigid {p : Pool α} (h : p.Discrete) {form : Form α} {kind : Kind}
    (hkind : p.Gives form kind) : Rigid form := by
  cases form with
  | constant v => cases hkind
  | pre x initial =>
      obtain ⟨hx, rfl⟩ := hkind
      exact h.kindOf hx
  | _ => trivial

/-! ### Building -/

/-- What becomes of a form stays among integers and booleans. -/
def Stays : Simplified α → Prop
  | .value c => c.kind.isDiscrete = true
  | .instead other => ∃ op x y, other = .binary op x y ∧ op.isDiscrete = true
  | .merge op _ c => op.isDiscrete = true ∧ c.kind.isDiscrete = true
  | _ => True

theorem mergeLiterals_stays {p : Pool α} {op : BinaryOp} (hop : op = .add ∨ op = .mul)
    {x : ExprId} {c : Value α} (hc : c.kind.isDiscrete = true) :
    Stays (p.mergeLiterals op x c) := by
  unfold mergeLiterals
  split
  · next inner y z hform =>
      split
      · next hsame =>
          subst hsame
          cases hmerged : (p.literal? z).bind (inner.eval? · c) with
          | none => trivial
          | some merged =>
              obtain ⟨d, hd, hvalue⟩ := Option.bind_eq_some_iff.mp hmerged
              refine ⟨by rcases hop with rfl | rfl <;> rfl, ?_⟩
              rcases Value.discrete_cases hc with ⟨n, rfl⟩ | ⟨b, rfl⟩
              · obtain ⟨m, -, rfl⟩ := BinaryOp.eval?_integer hop hvalue
                rfl
              · rcases hop with rfl | rfl <;> cases d <;> cases hvalue
      · trivial
  · trivial

theorem simplifyRight_stays {p : Pool α} {op : BinaryOp} {x : ExprId} {c : Value α} {kind : Kind}
    (hc : c.kind.isDiscrete = true) (hkind : kind.isDiscrete = true) :
    Stays (p.simplifyRight op x c kind) := by
  unfold simplifyRight
  split
  · trivial
  · rfl
  · trivial
  · rfl
  · trivial
  · split
    · trivial
    · split
      · exact mergeLiterals_stays (Or.inl rfl) hc
      · trivial
  · split <;> trivial
  · split
    · trivial
    · split
      · show (Value.zero kind : Value α).kind.isDiscrete = true
        rw [Value.kind_zero]
        exact hkind
      · split
        · exact mergeLiterals_stays (Or.inr rfl) hc
        · trivial
  · split <;> trivial
  · trivial

/-- Simplifying a form on integers and booleans gives another one. -/
theorem simplify_stays {p : Pool α} (hp : p.WellFormed) (hd : p.Discrete) {form : Form α}
    (hform : form.isDiscrete = true) {kind : Kind} (hgives : p.Gives form kind) :
    Stays (p.simplify form kind) := by
  have hkind := hd.gives hform hgives
  unfold simplify
  cases hliterals : p.evalLiterals? form with
  | some v => exact (evalLiterals?_kind hp hgives hliterals).symm ▸ hkind
  | none =>
      cases form with
      | unary op x =>
          simp only [simplifyUnary]
          split <;> trivial
      | binary op x y =>
          simp only [simplifyBinary]
          split
          · split
            · exact ⟨op, y, x, rfl, hform⟩
            · trivial
          · next c hy => exact simplifyRight_stays (hd.literal hp hy) hkind
          · trivial
      | select c t f =>
          simp only
          split
          · trivial
          · trivial
          · split <;> trivial
      | edge x rising =>
          simp only
          split
          · rfl
          · trivial
      | compare op x y => trivial
      | limit x lo hi => trivial
      | pre x initial => trivial
      | constant v => trivial
      | sensor name device => trivial
      | input name => trivial
      | _ => cases hform

/-- Everything that building a form can do. -/
theorem buildWithin_cases {fuel : Nat} {form : Form α} {p q : Pool α} {id : ExprId}
    (h : buildWithin fuel form p = .ok id q) :
    ∃ scope kind, p.infer form = .ok kind ∧
      (intern ⟨form, kind, scope, p.staysConstant form⟩ p = .ok id q ∨
        p.folding = true ∧
          (p.simplify form kind = .existing id ∧ p = q ∨
            (∃ v, p.simplify form kind = .value v ∧ constant v p = .ok id q) ∨
            (∃ fuel' other, fuel = fuel' + 1 ∧ p.simplify form kind = .instead other ∧
              buildWithin fuel' other p = .ok id q) ∨
            ∃ fuel' op x c d p₁, fuel = fuel' + 1 ∧ p.simplify form kind = .merge op x c ∧
              constant c p = .ok d p₁ ∧ buildWithin fuel' (.binary op x d) p₁ = .ok id q)) := by
  obtain ⟨scope, kind, -, hkind, h⟩ := buildWithin_settles h
  refine ⟨scope, kind, hkind, ?_⟩
  by_cases hfolding : p.folding = true
  · rw [if_pos hfolding] at h
    cases hsimplify : p.simplify form kind with
    | keep =>
        rw [hsimplify] at h
        exact Or.inl h
    | existing old =>
        rw [hsimplify] at h
        obtain ⟨rfl, rfl⟩ := pure_eq_ok.mp h
        exact Or.inr ⟨hfolding, Or.inl ⟨rfl, rfl⟩⟩
    | value v =>
        rw [hsimplify] at h
        exact Or.inr ⟨hfolding, Or.inr (Or.inl ⟨v, rfl, h⟩)⟩
    | instead other =>
        rw [hsimplify] at h
        cases fuel with
        | zero => exact Or.inl h
        | succ fuel' =>
            exact Or.inr ⟨hfolding, Or.inr (Or.inr (Or.inl ⟨fuel', other, rfl, rfl, h⟩))⟩
    | merge op x c =>
        rw [hsimplify] at h
        cases fuel with
        | zero => exact Or.inl h
        | succ fuel' =>
            obtain ⟨d, p₁, hd, hbuild⟩ := bind_eq_ok.mp h
            exact Or.inr ⟨hfolding, Or.inr (Or.inr (Or.inr
              ⟨fuel', op, x, c, d, p₁, rfl, rfl, hd, hbuild⟩))⟩
  · rw [if_neg hfolding] at h
    exact Or.inl h

/-- **Building stays among integers and booleans.** -/
theorem Discrete.buildWithin {fuel : Nat} {form : Form α} {p q : Pool α} (hp : p.WellFormed)
    (hd : p.Discrete) (hform : form.isDiscrete = true) {id : ExprId}
    (h : buildWithin fuel form p = .ok id q) : q.Discrete := by
  induction fuel using Nat.strongRecOn generalizing form p with
  | _ fuel ih =>
      obtain ⟨scope, kind, hkind, hcases⟩ := buildWithin_cases h
      have hgives := infer_gives hkind
      have hstays := simplify_stays hp hd hform hgives
      rcases hcases with hintern | ⟨-, ⟨-, rfl⟩ | ⟨c, hvalue, hconstant⟩ |
        ⟨fuel', other, rfl, hinstead, hbuild⟩ | ⟨fuel', op, x, c, d, p₁, rfl, hmerge, hc, hbuild⟩⟩
      · exact hd.intern hintern hform (hd.gives hform hgives)
      · exact hd
      · rw [hvalue] at hstays
        exact hd.constant hstays hconstant
      · rw [hinstead] at hstays
        obtain ⟨op, x, y, rfl, hop⟩ := hstays
        have hother : (Form.binary (α := α) op x y).isDiscrete = true := hop
        exact ih fuel' (Nat.lt_succ_self _) hp hd hother hbuild
      · rw [hmerge] at hstays
        have hmerged : (Form.binary (α := α) op x d).isDiscrete = true := hstays.1
        exact ih fuel' (Nat.lt_succ_self _) (constant_yields hp hc).wellFormed
          (hd.constant hstays.2 hc) hmerged hbuild

end Pool

end SignalNet
