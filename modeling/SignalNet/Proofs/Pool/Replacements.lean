import SignalNet.Proofs.Pool.Reduced

/-!
# Replacing forms

While a form is built, another one may take its place, and another one that of
the other.  `Pool.Replaced` is the chain of these replacements, and
`Pool.Replaced.buildWithin` says that building goes along it.

The chain is short.  A literal moves to the right, and merges with a literal
that stands there already.  Then it is over: what stands before a literal in a
normal pool is *open* (`Pool.Normal.open`), it neither is a literal nor ends in
one under the same operator, so nothing is left to merge with.

`Pool.build_idempotent` is the result for pools that calls lead to.
-/

namespace SignalNet.Pool

open Computing

variable {α : Type} [Scalar α]

/-! ### Forms in place of forms -/

/-- The form that is built in place of another one, and the pool in which that
happens.  A literal that results from merging is added first. -/
def replacement? (p : Pool α) (form : Form α) : Option (Form α × Pool α) :=
  match p.joinScopes .global form.dependencies, p.infer form with
  | .ok _, .ok kind =>
    match if p.folding then p.simplify form kind else .keep with
    | .instead other => some (other, p)
    | .merge op x c =>
      match constant c p with
      | .ok d q => some (.binary op x d, q)
      | .error _ _ => none
    | _ => none
  | _, _ => none

/-- After `n` replacements `last` is built in `q`, and is not replaced. -/
inductive Replaced : (n : Nat) → (p : Pool α) → Form α → (q : Pool α) → (last : Form α) → Prop
  | stays {p : Pool α} {form : Form α} (h : p.replacement? form = none) : Replaced 0 p form p form
  | again {n : Nat} {p q r : Pool α} {form other last : Form α}
      (h : p.replacement? form = some (other, q)) (hrest : Replaced n q other r last) :
      Replaced (n + 1) p form r last

/-- **Building one form in place of another.** -/
theorem buildWithin_succ (fuel : Nat) (form : Form α) (p : Pool α) :
    buildWithin (fuel + 1) form p =
      match p.replacement? form with
      | some (other, q) => buildWithin fuel other q
      | none => buildWithin 0 form p := by
  rw [buildWithin_apply, buildWithin_apply 0, replacement?]
  cases p.joinScopes .global form.dependencies with
  | error e => rfl
  | ok scope =>
    cases p.infer form with
    | error e => rfl
    | ok kind =>
      dsimp only
      cases (if p.folding then p.simplify form kind else .keep) with
      | merge op x c =>
          show (constant c >>= fun d => buildWithin fuel (.binary op x d)) p = _
          cases hconstant : constant c p with
          | ok d q =>
              dsimp only
              rw [hconstant]
              exact bind_of_ok hconstant
          | error e q =>
              unfold constant intern at hconstant
              split at hconstant <;> cases hconstant
      | _ => rfl

/-- What is built in the end, if there is fuel for the replacements. -/
theorem Replaced.buildWithin {n : Nat} {p q : Pool α} {form last : Form α}
    (h : Replaced n p form q last) {fuel : Nat} (hfuel : n ≤ fuel) :
    buildWithin fuel form p = buildWithin 0 last q := by
  induction h generalizing fuel with
  | stays hstays =>
      cases fuel with
      | zero => rfl
      | succ fuel => rw [buildWithin_succ, hstays]
  | again hagain _ ih =>
      obtain ⟨fuel, rfl⟩ := Nat.exists_eq_add_of_le' (Nat.le_trans (Nat.succ_pos _) hfuel)
      rw [buildWithin_succ, hagain]
      exact ih (Nat.le_of_succ_le_succ hfuel)

/-! ### Which forms are replaced -/

section Cases

variable {p : Pool α} {op inner : BinaryOp} {x y : ExprId} {c d : Value α} {kind : Kind}

theorem mergeLiterals_eq_merge (h : p.mergeLiterals op x c = .merge inner y d) :
    inner = op ∧ ∃ z w, p.form? x = some (.binary op y z) ∧ p.literal? z = some w ∧
      op.eval? w c = some d := by
  unfold mergeLiterals at h
  split at h
  · next op' y' z hform =>
    split at h
    · next heq =>
      subst heq
      split at h
      · next merged hmerged =>
        cases h
        obtain ⟨w, hw, heval⟩ := Option.bind_eq_some_iff.mp hmerged
        exact ⟨rfl, z, w, hform, hw, heval⟩
      · cases h
    · cases h
  · cases h

theorem mergeLiterals_ne_instead {other : Form α} : p.mergeLiterals op x c ≠ .instead other := by
  unfold mergeLiterals
  split
  · split
    · split <;> simp
    · simp
  · simp

/-- A literal on the right is merged into numbers only. -/
theorem simplifyRight_eq_merge (h : p.simplifyRight op x c kind = .merge inner y d) :
    (op = .add ∨ op = .mul) ∧ kind.isNumeric = true ∧
      p.mergeLiterals op x c = .merge inner y d := by
  unfold simplifyRight at h
  split at h
  case h_6 =>
    split at h
    · cases h
    · split at h
      · next hnumeric => exact ⟨Or.inl rfl, hnumeric, h⟩
      · cases h
  case h_8 =>
    split at h
    · cases h
    · split at h
      · cases h
      · split at h
        · next hnumeric => exact ⟨Or.inr rfl, hnumeric, h⟩
        · cases h
  all_goals first
    | cases h
    | split at h <;> cases h

theorem simplifyRight_ne_instead {other : Form α} :
    p.simplifyRight op x c kind ≠ .instead other := by
  unfold simplifyRight
  split
  case h_6 =>
    split
    · simp
    · split
      · exact mergeLiterals_ne_instead
      · simp
  case h_8 =>
    split
    · simp
    · split
      · simp
      · split
        · exact mergeLiterals_ne_instead
        · simp
  all_goals first
    | simp; done
    | split <;> simp

theorem simplifyBinary_eq_instead {other : Form α}
    (h : p.simplifyBinary op x y kind = .instead other) :
    other = .binary op y x ∧ p.literal? y = none ∧ ∃ c, p.literal? x = some c := by
  unfold simplifyBinary at h
  dsimp only at h
  split at h
  · next c hx hy =>
    split at h
    · cases h
      exact ⟨rfl, hy, c, hx⟩
    · cases h
  · exact absurd h simplifyRight_ne_instead
  · cases h

theorem simplifyBinary_eq_merge {z : ExprId} (h : p.simplifyBinary op x y kind = .merge inner z d) :
    ∃ c, p.literal? y = some c ∧ p.simplifyRight op x c kind = .merge inner z d := by
  unfold simplifyBinary at h
  dsimp only at h
  split at h
  · split at h <;> cases h
  · next c hy => exact ⟨c, hy, h⟩
  · cases h

theorem simplify_binary_cases (p : Pool α) (op : BinaryOp) (x y : ExprId) (kind : Kind) :
    (∃ v, p.evalLiterals? (.binary op x y) = some v ∧
        p.simplify (.binary op x y) kind = .value v) ∨
      p.evalLiterals? (.binary op x y) = none ∧
        p.simplify (.binary op x y) kind = p.simplifyBinary op x y kind := by
  unfold simplify
  cases p.evalLiterals? (.binary op x y) with
  | some v => exact Or.inl ⟨v, rfl, rfl⟩
  | none => exact Or.inr ⟨rfl, rfl⟩

/-- Only binary operators are replaced: a literal moves to the right. -/
theorem simplify_eq_instead (hp : p.WellFormed) {form other : Form α}
    (h : p.simplify form kind = .instead other) :
    ∃ op x y, form = .binary op x y ∧ other = .binary op y x ∧ p.literal? y = none ∧
      ∃ c, p.literal? x = some c := by
  have hless := simplify_replacing hp form kind
  rw [h] at hless
  cases form with
  | binary op x y =>
      rcases simplify_binary_cases p op x y kind with ⟨v, -, hvalue⟩ | ⟨-, hbinary⟩
      · rw [h] at hvalue
        cases hvalue
      · exact ⟨op, x, y, rfl, simplifyBinary_eq_instead (hbinary.symm.trans h)⟩
  | _ => exact absurd hless (Nat.not_lt_zero _)

/-- Or it merges with another one, and both stand on the right. -/
theorem simplify_eq_merge (hp : p.WellFormed) {form : Form α} {z : ExprId}
    (h : p.simplify form kind = .merge inner z d) :
    ∃ x y c, form = .binary inner x y ∧ p.literal? y = some c ∧
      (inner = .add ∨ inner = .mul) ∧ kind.isNumeric = true ∧
      ∃ z' w, p.form? x = some (.binary inner z z') ∧ p.literal? z' = some w ∧
        inner.eval? w c = some d := by
  have hless := simplify_replacing hp form kind
  rw [h] at hless
  cases form with
  | binary op x y =>
      rcases simplify_binary_cases p op x y kind with ⟨v, -, hvalue⟩ | ⟨-, hbinary⟩
      · rw [h] at hvalue
        cases hvalue
      · obtain ⟨c, hy, hright⟩ := simplifyBinary_eq_merge (hbinary.symm.trans h)
        obtain ⟨hop, hnumeric, hmerge⟩ := simplifyRight_eq_merge hright
        obtain ⟨rfl, z', w, hform, hw, heval⟩ := mergeLiterals_eq_merge hmerge
        exact ⟨x, y, c, rfl, hy, hop, hnumeric, z', w, hform, hw, heval⟩
  | _ => exact absurd hless (Nat.not_lt_zero _)

end Cases

/-- A literal can be used together with any other expression. -/
theorem joinScopes_literal {p : Pool α} (hp : p.WellFormed) {x d : ExprId} {kind : Kind}
    {c : Value α} (hx : p.kindOf x = .ok kind) (hd : p.literal? d = some c) :
    (∃ scope, p.joinScopes .global [x, d] = .ok scope) ∧
      ∃ scope, p.joinScopes .global [d, x] = .ok scope := by
  obtain ⟨n, hn, -⟩ := kindOf_eq_ok.mp hx
  have hxscope : p.scopeOf x = .ok n.scope := scopeOf_eq_ok.mpr ⟨n, hn, rfl⟩
  have hdscope := hp.literal_scope hd
  refine ⟨⟨n.scope, ?_⟩, n.scope, ?_⟩
  · simp only [joinScopes, hxscope, hdscope, Scope.join?]
    cases n.scope <;> rfl
  · simp only [joinScopes, hxscope, hdscope, Scope.join?]

/-! ### Operands without literals -/

/-- An expression that is no literal and does not end in one under the
operator. -/
structure Open (p : Pool α) (op : BinaryOp) (x : ExprId) : Prop where
  literal : p.literal? x = none
  inner : ∀ {y z : ExprId}, p.form? x = some (.binary op y z) → p.literal? z = none

/-- Nothing merges with the literals of an open expression. -/
theorem Open.mergeLiterals {p : Pool α} {op : BinaryOp} {x : ExprId} (h : p.Open op x)
    (c : Value α) : p.mergeLiterals op x c = .keep := by
  unfold Pool.mergeLiterals
  split
  · next inner y z hform =>
    split
    · next heq =>
      rw [h.inner (heq ▸ hform)]
      rfl
    · rfl
  · rfl

/-- An expression stays open, since operands come before it. -/
theorem Open.extend {p q : Pool α} {op : BinaryOp} {x : ExprId} (h : p.Open op x)
    (hp : p.WellFormed) (hq : p.Extends q) (hx : p.Present x) : q.Open op x := by
  refine ⟨(literal?_congr (hq.get?_eq hx)).trans h.literal, ?_⟩
  intro y z hform
  rw [form?_congr (hq.get?_eq hx)] at hform
  obtain ⟨n, hn, hnform⟩ := form?_eq_some hform
  have hz : p.Present z := by
    refine Nat.lt_trans (hp.before hn z ?_) hx
    simp [Node.dependencies, hnform, Form.dependencies]
  rw [literal?_congr (hq.get?_eq hz)]
  exact h.inner hform

/-- Numbers of one kind can be added and multiplied. -/
theorem eval?_numbers {op : BinaryOp} (hop : op = .add ∨ op = .mul) {v w : Value α} {kind : Kind}
    (hv : v.kind = kind) (hw : w.kind = kind) (hnumeric : kind.isNumeric = true) :
    ∃ u, op.eval? v w = some u := by
  subst hv
  cases v <;> simp [Value.kind, Kind.isNumeric] at hnumeric <;>
    cases w <;> simp [Value.kind] at hw <;> rcases hop with rfl | rfl <;> exact ⟨_, rfl⟩

/-- A literal on the right that stays is not neutral, and does not merge. -/
theorem mergeLiterals_of_kept {p : Pool α} {op : BinaryOp} (hop : op = .add ∨ op = .mul)
    {x : ExprId} {c : Value α} {kind : Kind} (hnumeric : kind.isNumeric = true)
    (h : p.simplifyRight op x c kind = .keep) : p.mergeLiterals op x c = .keep := by
  rcases hop with rfl | rfl
  · simp only [simplifyRight, hnumeric] at h
    split at h
    · cases h
    · exact h
  · simp only [simplifyRight, hnumeric] at h
    split at h
    · cases h
    · split at h
      · cases h
      · exact h

/-- **What stands before a literal is open.**  Otherwise the sum or the product
would have been simplified before it was stored. -/
theorem Normal.open {p : Pool α} (hp : p.Normal) (hfolding : p.folding = true) {op : BinaryOp}
    (hop : op = .add ∨ op = .mul) {x y z : ExprId} {c : Value α} {kind : Kind}
    (hform : p.form? x = some (.binary op y z)) (hz : p.literal? z = some c)
    (hkind : p.kindOf x = .ok kind) (hnumeric : kind.isNumeric = true) : p.Open op y := by
  obtain ⟨n, hn, hnform⟩ := form?_eq_some hform
  obtain ⟨m, hm, rfl⟩ := kindOf_eq_ok.mp hkind
  rw [hn] at hm
  cases hm
  have hkept := hp.reduced hfolding hn (by rw [hnform]; rfl)
  rw [hnform] at hkept
  obtain ⟨a, b, ha, hb, hresult⟩ := hp.wellFormed.form?_gives hform rfl hkind
  obtain ⟨rfl, rfl, -⟩ := resultKind?_numeric hop hresult hnumeric
  have hc : c.kind = n.kind := Except.ok.inj ((hp.wellFormed.literal_kind hz).symm.trans hb)
  rcases simplify_binary_cases p op y z n.kind with ⟨v, -, hvalue⟩ | ⟨hnone, hbinary⟩
  · rw [hkept] at hvalue
    cases hvalue
  have hy : p.literal? y = none := by
    cases hliteral : p.literal? y with
    | none => rfl
    | some w =>
        have hw := Except.ok.inj ((hp.wellFormed.literal_kind hliteral).symm.trans ha)
        obtain ⟨u, hu⟩ := eval?_numbers hop hw hc hnumeric
        simp [evalLiterals?, Form.isPure, Form.isLeaf, Form.isStateful, Form.dependencies,
          Form.eval?, hliteral, hz, hu] at hnone
  refine ⟨hy, ?_⟩
  intro y' z' hform'
  cases hw : p.literal? z' with
  | none => rfl
  | some w =>
      -- Two literals under the operator would have been merged.
      have hright : p.simplifyRight op y c n.kind = .keep := by
        rw [hkept] at hbinary
        simpa [simplifyBinary, hy, hz] using hbinary.symm
      have hmerge := mergeLiterals_of_kept hop hnumeric hright
      obtain ⟨a', b', ha', hb', hresult'⟩ := hp.wellFormed.form?_gives hform' rfl ha
      obtain ⟨rfl, rfl, -⟩ := resultKind?_numeric hop hresult' hnumeric
      have hwkind := Except.ok.inj ((hp.wellFormed.literal_kind hw).symm.trans hb')
      obtain ⟨u, hu⟩ := eval?_numbers hop hwkind hc hnumeric
      simp [mergeLiterals, hform', hw, hu] at hmerge

/-! ### How often forms are replaced -/

/-- What makes a form be replaced. -/
theorem replacement?_eq_some {p q : Pool α} {form other : Form α}
    (h : p.replacement? form = some (other, q)) :
    ∃ kind, p.infer form = .ok kind ∧ p.folding = true ∧
      (p.simplify form kind = .instead other ∧ q = p ∨
        ∃ op y c d, p.simplify form kind = .merge op y c ∧ constant c p = .ok d q ∧
          other = .binary op y d) := by
  unfold replacement? at h
  split at h
  · next kind _ hkind =>
    cases hfolding : p.folding with
    | false => simp [hfolding] at h
    | true =>
        rw [hfolding, if_pos rfl] at h
        refine ⟨kind, hkind, rfl, ?_⟩
        split at h
        · next hinstead =>
          cases h
          exact Or.inl ⟨hinstead, rfl⟩
        · next op y c hmerge =>
          split at h
          · next d r hd =>
            cases h
            exact Or.inr ⟨op, y, c, d, hmerge, hd, rfl⟩
          · cases h
        · cases h
  · cases h

/-- A literal on the right does not move. -/
theorem replacement?_right {p q : Pool α} (hp : p.WellFormed) {op : BinaryOp} {x y : ExprId}
    {c : Value α} (hc : p.literal? y = some c) {other : Form α}
    (h : p.replacement? (.binary op x y) = some (other, q)) :
    p.folding = true ∧ ∃ kind z d e, p.infer (.binary op x y) = .ok kind ∧
      p.simplify (.binary op x y) kind = .merge op z d ∧ constant d p = .ok e q ∧
      other = .binary op z e := by
  obtain ⟨kind, hkind, hfolding, ⟨hinstead, -⟩ | ⟨inner, z, d, e, hmerge, he, hother⟩⟩ :=
    replacement?_eq_some h
  · obtain ⟨_, _, _, hform, -, hnone, -⟩ := simplify_eq_instead hp hinstead
    cases hform
    rw [hc] at hnone
    cases hnone
  · obtain ⟨_, _, _, hform, -⟩ := simplify_eq_merge hp hmerge
    cases hform
    exact ⟨hfolding, kind, z, d, e, hkind, hmerge, he, hother⟩

/-- Nothing merges with what has merged. -/
theorem Normal.merged_stays {p q : Pool α} (hp : p.Normal) (hfolding : p.folding = true)
    {form : Form α} {kind : Kind} (hkind : p.infer form = .ok kind) {op : BinaryOp} {y d : ExprId}
    {c : Value α} (hmerge : p.simplify form kind = .merge op y c) (hd : constant c p = .ok d q) :
    q.replacement? (.binary op y d) = none := by
  obtain ⟨x, z, c', rfl, hz, hop, hnumeric, z', w, hx, hw, -⟩ :=
    simplify_eq_merge hp.wellFormed hmerge
  obtain ⟨hq, hextends⟩ : q.Normal ∧ p.Extends q := by
    have hconstant := constant_normalizes c p hp
    rwa [hd] at hconstant
  obtain ⟨v, hv⟩ := constant_literal hp.wellFormed hd
  obtain ⟨a, b, ha, -, hresult⟩ := infer_gives hkind
  obtain ⟨rfl, -, -⟩ := resultKind?_numeric hop hresult hnumeric
  have hopen : q.Open op y := by
    obtain ⟨n, hn, hnform⟩ := form?_eq_some hx
    have hy : p.Present y := by
      refine Nat.lt_trans (hp.wellFormed.before hn y ?_) (lt_size_of_get? hn)
      simp [Node.dependencies, hnform, Form.dependencies]
    exact (hp.open hfolding hop hx hw ha hnumeric).extend hp.wellFormed hextends hy
  cases hagain : q.replacement? (.binary op y d) with
  | none => rfl
  | some next =>
      obtain ⟨other, r⟩ := next
      obtain ⟨-, _, _, _, _, -, hmerge', -⟩ := replacement?_right hq.wellFormed hv hagain
      obtain ⟨_, _, _, hform, -, -, -, _, _, hy, hliteral, -⟩ :=
        simplify_eq_merge hq.wellFormed hmerge'
      cases hform
      rw [hopen.inner hy] at hliteral
      cases hliteral

/-- **A form is replaced at most twice**: a literal moves to the right, and
merges there. -/
theorem Normal.replaced {p : Pool α} (hp : p.Normal) (form : Form α) :
    ∃ n q last, n ≤ 2 ∧ Replaced n p form q last := by
  cases hfirst : p.replacement? form with
  | none => exact ⟨0, p, form, Nat.zero_le 2, .stays hfirst⟩
  | some next =>
      obtain ⟨other, q⟩ := next
      obtain ⟨kind, hkind, hfolding, ⟨hinstead, rfl⟩ | ⟨op, y, c, d, hmerge, hd, rfl⟩⟩ :=
        replacement?_eq_some hfirst
      · obtain ⟨op, x, y, rfl, rfl, -, c, hc⟩ := simplify_eq_instead hp.wellFormed hinstead
        cases hsecond : q.replacement? (.binary op y x) with
        | none => exact ⟨1, _, _, Nat.le_succ 1, .again hfirst (.stays hsecond)⟩
        | some next =>
            obtain ⟨other, r⟩ := next
            obtain ⟨hfolding, kind, z, d, e, hkind, hmerge, he, rfl⟩ :=
              replacement?_right hp.wellFormed hc hsecond
            exact ⟨2, _, _, Nat.le_refl 2, .again hfirst
              (.again hsecond (.stays (hp.merged_stays hfolding hkind hmerge he)))⟩
      · exact ⟨1, _, _, Nat.le_succ 1, .again hfirst
          (.stays (hp.merged_stays hfolding hkind hmerge hd))⟩

/-- **Folding is idempotent and ends soon.**  In a pool that calls lead to, with
folding or without it:

* building the form of a composite node gives that node and changes nothing,
  and with folding on no simplification applies to it;
* building any form replaces it at most twice, and then builds what is left
  without a replacement. -/
theorem build_idempotent {p : Pool α} (hp : p.Reachable) :
    (∀ {id : ExprId} {n : Node α}, p.get? id = some n → n.form.isComposite = true →
      build n.form p = .ok id p ∧ (p.folding = true → p.simplify n.form n.kind = .keep)) ∧
    ∀ form, ∃ n q last, n ≤ 2 ∧ Replaced n p form q last ∧
      build form p = buildWithin 0 last q := by
  have hnormal := hp.normal
  refine ⟨?_, ?_⟩
  · intro id n hn hcomposite
    exact ⟨hnormal.build_stored hn hcomposite,
      fun hfolding => hnormal.reduced hfolding hn hcomposite⟩
  · intro form
    obtain ⟨n, q, last, hn, hreplaced⟩ := hnormal.replaced form
    refine ⟨n, q, last, hn, hreplaced, ?_⟩
    exact hreplaced.buildWithin (Nat.le_trans hn (Nat.le_add_left 2 p.size))

/-- A number plus two, and a three. -/
def Sample.plusTwo : Pool Float :=
  performAll [.sensor "n" .integer, .constant (.integer 2), .binary .add 1 0,
    .constant (.integer 3)] { folding := true }

/-- Three added on the left moves to the right and merges with the two. -/
theorem plusTwo_idempotent :
    Sample.plusTwo.form? 2 = some (.binary .add 0 1) ∧
      build (.binary .add 0 1) Sample.plusTwo = .ok 2 Sample.plusTwo ∧
      ∃ n q last, n ≤ 2 ∧ Replaced n Sample.plusTwo (.binary .add 3 2) q last ∧
        outcome (buildWithin 0 last q) = .ok 5 := by
  have hform : Sample.plusTwo.form? 2 = some (.binary .add 0 1) := by decide +kernel
  have hreachable : Sample.plusTwo.Reachable := ⟨true, _, rfl⟩
  obtain ⟨hstored, hreplaced⟩ := build_idempotent hreachable
  obtain ⟨node, hnode, hnodeForm⟩ := form?_eq_some hform
  obtain ⟨hagain, -⟩ := hstored hnode (by rw [hnodeForm]; rfl)
  rw [hnodeForm] at hagain
  obtain ⟨n, q, last, hn, hchain, hlast⟩ := hreplaced (.binary .add 3 2)
  refine ⟨hform, hagain, n, q, last, hn, hchain, ?_⟩
  rw [← hlast]
  decide +kernel

end SignalNet.Pool
