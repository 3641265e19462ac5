import SignalNet.Proofs.Pool.Inherited

/-!
# Constructing the same expressions again

Making the same calls a second time, in the pool that the first time left,
gives the same results and changes nothing.  A call may stop with an error: it
then stops with the same error again.

The statement about one computation (`Pool.Replays`) is about all pools that
the pool it leaves embeds in, so that it composes (`Pool.Replays.bind`).  It
holds of a construction because

* a node that has been added is found again (`Pool.intern_replays`);
* what a simplification decides depends on operands and on operands of
  operands only (`Pool.simplify_congr`);
* a form is replaced by another one only so often, whatever fuel is left
  (`Pool.Replacing`).

`Pool.performAll_again` puts calls together, and `Pool.replay_idempotent` is
the result.
-/

namespace SignalNet

namespace Computing

variable {ε σ β : Type}

/-- The result of a computation, without the state that it leaves. -/
def outcome : EStateM.Result ε σ β → Except ε β
  | .ok b _ => .ok b
  | .error e _ => .error e

theorem outcome_eq_ok {r : EStateM.Result ε σ β} {b : β} (h : outcome r = .ok b) :
    r = .ok b (finalState r) := by
  cases r with
  | ok _ s =>
      cases h
      rfl
  | error _ s => cases h

theorem outcome_eq_error {r : EStateM.Result ε σ β} {e : ε} (h : outcome r = .error e) :
    r = .error e (finalState r) := by
  cases r with
  | ok _ s => cases h
  | error _ s =>
      cases h
      rfl

/-- The same result in another state. -/
def restate (t : σ) : EStateM.Result ε σ β → EStateM.Result ε σ β
  | .ok b _ => .ok b t
  | .error e _ => .error e t

@[simp] theorem outcome_restate (t : σ) (r : EStateM.Result ε σ β) :
    outcome (restate t r) = outcome r := by
  cases r <;> rfl

@[simp] theorem finalState_restate (t : σ) (r : EStateM.Result ε σ β) :
    finalState (restate t r) = t := by
  cases r <;> rfl

end Computing

/-- A form that is given operands has them. -/
theorem Form.dependencies_of_withDependencies {α : Type} {form other : Form α}
    {ids : List ExprId} (h : form.withDependencies? ids = some other) :
    other.dependencies = ids := by
  unfold Form.withDependencies? at h
  split at h <;> grind [Form.dependencies, Form.isLeaf]

namespace Pool

open Computing

variable {α : Type} [Scalar α]

/-! ### Embedded pools -/

/-- A well-formed pool extends another one, and has the same persisted
values. -/
structure Embeds (p q : Pool α) : Prop where
  wellFormed : q.WellFormed
  extended : p.Extends q
  persists : q.persists = p.persists

theorem Embeds.refl {p : Pool α} (hp : p.WellFormed) : p.Embeds p :=
  ⟨hp, .refl p, rfl⟩

theorem Embeds.trans {p q r : Pool α} (hpq : p.Embeds q) (hqr : q.Embeds r) : p.Embeds r :=
  ⟨hqr.wellFormed, hpq.extended.trans hqr.extended, hqr.persists.trans hpq.persists⟩

/-- An expression that exists. -/
abbrev Present (id : ExprId) (p : Pool α) : Prop :=
  id < p.size

omit [Scalar α] in
theorem Present.extend {p q : Pool α} {id : ExprId} (h : p.Present id) (hq : p.Extends q) :
    q.Present id :=
  Nat.lt_of_lt_of_le h hq.size_le

/-! ### Computations that can be repeated -/

/-- A computation leads from `p` to a pool that `p` embeds in, with a result as
described.  Where that pool embeds, the computation gives the same result again
and changes nothing. -/
structure Replays {β : Type} (x : Building α β) (post : β → Pool α → Prop) (p : Pool α) :
    Prop where
  embeds : p.Embeds (finalState (x p))
  again : ∀ q, (finalState (x p)).Embeds q → x q = restate q (x p)
  gives : ∀ b p', x p = .ok b p' → post b p'

section Replays

variable {β γ : Type} {p : Pool α}

theorem replays_pure (hp : p.WellFormed) {b : β} {post : β → Pool α → Prop} (hb : post b p) :
    Replays (pure b) post p where
  embeds := .refl hp
  again _ _ := rfl
  gives c p' h := by
    obtain ⟨rfl, rfl⟩ := pure_eq_ok.mp h
    exact hb

theorem replays_throw (hp : p.WellFormed) (e : ExprError α) (post : β → Pool α → Prop) :
    Replays (throw e) post p where
  embeds := .refl hp
  again _ _ := rfl
  gives _ _ h := absurd h throw_ne_ok

theorem replays_ofExcept (hp : p.WellFormed) (x : Except (ExprError α) β) :
    Replays (Building.ofExcept x) (fun b p' => x = .ok b ∧ p = p') p := by
  cases x with
  | ok b => exact replays_pure hp ⟨rfl, rfl⟩
  | error e => exact replays_throw hp e _

/-- **Composition.**  What follows starts in the pool that the first part
leaves, and that pool embeds wherever the last one does. -/
theorem Replays.bind {x : Building α β} {f : β → Building α γ} {first : β → Pool α → Prop}
    {post : γ → Pool α → Prop} (hx : Replays x first p)
    (hf : ∀ b p', p.Embeds p' → first b p' → Replays (f b) post p') :
    Replays (x >>= f) post p := by
  cases hrun : x p with
  | error e p' =>
      have hbind : (x >>= f) p = .error e p' := bind_of_error hrun
      have hembeds := hx.embeds
      have hagain := hx.again
      rw [hrun] at hembeds hagain
      refine ⟨?_, ?_, ?_⟩
      · rw [hbind]
        exact hembeds
      · intro q hq
        rw [hbind] at hq ⊢
        exact bind_of_error (hagain q hq)
      · intro c q h
        rw [hbind] at h
        cases h
  | ok b p' =>
      have hbind : (x >>= f) p = f b p' := bind_of_ok hrun
      have hembeds := hx.embeds
      have hagain := hx.again
      rw [hrun] at hembeds hagain
      have hrest := hf b p' hembeds (hx.gives b p' hrun)
      refine ⟨?_, ?_, ?_⟩
      · rw [hbind]
        exact hembeds.trans hrest.embeds
      · intro q hq
        rw [hbind] at hq ⊢
        have hfirst : x q = .ok b q := hagain q (hrest.embeds.trans hq)
        rw [bind_of_ok hfirst]
        exact hrest.again q hq
      · intro c q h
        rw [hbind] at h
        exact hrest.gives c q h

/-- Looking at the pool, if nothing that is looked at differs in a pool that
this one embeds in. -/
theorem replays_get {f : Pool α → Building α γ} {post : γ → Pool α → Prop}
    (hf : Replays (f p) post p) (hsame : ∀ q, p.Embeds q → f q = f p) :
    Replays (get >>= f) post p where
  embeds := hf.embeds
  again q hq := by
    show f q q = restate q (f p p)
    rw [hsame q (hf.embeds.trans hq)]
    exact hf.again q hq
  gives b p' h := hf.gives b p' h

/-- A list is folded over by steps that can be repeated. -/
theorem replays_foldlM {f : ExprId → ExprId → Building α ExprId}
    (hf : ∀ {p : Pool α} {x y}, p.WellFormed → p.Present x → p.Present y →
      Replays (f x y) Present p)
    {terms : List ExprId} (hp : p.WellFormed) (hterms : ∀ t ∈ terms, p.Present t) {first : ExprId}
    (hfirst : p.Present first) :
    Replays (terms.foldlM f first) Present p := by
  induction terms generalizing p first with
  | nil => exact replays_pure hp hfirst
  | cons t rest ih =>
      rw [List.foldlM_cons]
      refine (hf hp hfirst (hterms t List.mem_cons_self)).bind ?_
      intro id p' hpp' hid
      exact ih hpp'.wellFormed
        (fun u hu => (hterms u (List.mem_cons_of_mem _ hu)).extend hpp'.extended) hid

end Replays

/-! ### Adding nodes -/

omit [Scalar α] in
/-- The pool extends another one at the positions that the other one has. -/
theorem Extends.same {p q : Pool α} (h : p.Extends q) {ids : List ExprId}
    (hids : ∀ d ∈ ids, p.Present d) : ∀ d ∈ ids, q.get? d = p.get? d :=
  fun d hd => h.get?_eq (hids d hd)

/-- **A node that has been added is found again.** -/
theorem intern_replays {p : Pool α} {n : Node α} (hp : p.WellFormed)
    (hgrows : p.Grows (finalState (intern n p))) :
    Replays (intern n) Present p := by
  obtain ⟨hwell, hextends⟩ := hgrows hp
  have hrun : ∃ id p', intern n p = .ok id p' ∧ p'.persists = p.persists := by
    unfold intern
    cases p.find? n with
    | some id => exact ⟨id, p, rfl, rfl⟩
    | none => exact ⟨p.size, _, rfl, rfl⟩
  obtain ⟨id, p', hrun, hpersists⟩ := hrun
  rw [hrun] at hwell hextends
  obtain ⟨m, hm, hcanonical⟩ := intern_eq_ok hp hrun
  refine ⟨?_, ?_, ?_⟩
  · rw [hrun]
    exact ⟨hwell, hextends, hpersists⟩
  · intro q hq
    rw [hrun] at hq ⊢
    have hfind : q.find? n = some id :=
      hq.wellFormed.find?_eq_some_iff.mpr ⟨m, hq.extended.get? hm, hcanonical⟩
    unfold intern
    rw [hfind]
    rfl
  · intro other q h
    rw [hrun] at h
    cases h
    exact lt_size_of_get? hm

theorem constant_replays {p : Pool α} (hp : p.WellFormed) (v : Value α) :
    Replays (constant v) Present p :=
  intern_replays hp (constant_sound v p)

/-- The literal that stands for a value. -/
theorem constant_literal {p p' : Pool α} (hp : p.WellFormed) {v : Value α} {id : ExprId}
    (h : constant v p = .ok id p') : ∃ w, p'.literal? id = some w := by
  obtain ⟨m, hm, hcanonical⟩ := intern_eq_ok hp h
  have hform := (canonical_eq_parts hcanonical).1
  cases hm' : m.form with
  | constant w => exact ⟨w, by simp [literal?, form?, hm, hm', Form.literal?]⟩
  | _ => simp [hm', Form.canonical] at hform

/-! ### Simplifications -/

section Congruence

variable {p q : Pool α}

omit [Scalar α] in
theorem form?_congr {i : ExprId} (h : q.get? i = p.get? i) : q.form? i = p.form? i := by
  simp only [form?, h]

omit [Scalar α] in
theorem mapM_literal?_congr {ids : List ExprId} (h : ∀ d ∈ ids, q.get? d = p.get? d) :
    ids.mapM q.literal? = ids.mapM p.literal? := by
  induction ids with
  | nil => rfl
  | cons d rest ih =>
      have hd := literal?_congr (h d List.mem_cons_self)
      have hrest := ih fun e he => h e (List.mem_cons_of_mem d he)
      rw [List.mapM_cons, List.mapM_cons, hd, hrest]

/-- Merging looks at an operand of the operand. -/
theorem mergeLiterals_congr (hp : p.WellFormed) (hq : p.Extends q) {x : ExprId} (hx : p.Present x)
    (op : BinaryOp) (c : Value α) : q.mergeLiterals op x c = p.mergeLiterals op x c := by
  have hform := form?_congr (hq.get?_eq hx)
  unfold mergeLiterals
  rw [hform]
  cases hinner : p.form? x with
  | none => rfl
  | some form =>
      cases form with
      | binary inner y z =>
          obtain ⟨n, hn, hnform⟩ := form?_eq_some hinner
          have hz : p.Present z := by
            refine Nat.lt_trans (hp.before hn z ?_) hx
            simp [Node.dependencies, hnform, Form.dependencies]
          simp only [literal?_congr (hq.get?_eq hz)]
      | _ => rfl

theorem simplifyRight_congr (hp : p.WellFormed) (hq : p.Extends q) {x : ExprId}
    (hx : p.Present x) (op : BinaryOp) (c : Value α) (kind : Kind) :
    q.simplifyRight op x c kind = p.simplifyRight op x c kind := by
  unfold simplifyRight
  simp only [mergeLiterals_congr hp hq hx]

theorem simplifyBinary_congr (hp : p.WellFormed) (hq : p.Extends q) {x y : ExprId}
    (hx : p.Present x) (hy : p.Present y) (op : BinaryOp) (kind : Kind) :
    q.simplifyBinary op x y kind = p.simplifyBinary op x y kind := by
  unfold simplifyBinary
  simp only [hq.get?_eq hx, literal?_congr (hq.get?_eq hx), literal?_congr (hq.get?_eq hy),
    simplifyRight_congr hp hq hx]

/-- **Simplifying a form** looks at operands and at operands of operands, so it
decides the same in every pool that holds them. -/
theorem simplify_congr (hp : p.WellFormed) (hq : p.Extends q) {form : Form α}
    (hdeps : ∀ d ∈ form.dependencies, p.Present d) (kind : Kind) :
    q.simplify form kind = p.simplify form kind := by
  have hsame := hq.same hdeps
  have hliterals : q.evalLiterals? form = p.evalLiterals? form := by
    simp only [evalLiterals?, mapM_literal?_congr hsame]
  unfold simplify
  rw [hliterals]
  cases form with
  | binary op x y =>
      have hx : p.Present x := hdeps x List.mem_cons_self
      have hy : p.Present y := hdeps y (List.mem_pair.mpr (Or.inr rfl))
      simp only [simplifyBinary_congr hp hq hx hy]
  | unary op x =>
      have hx := form?_congr (hsame x (List.mem_singleton.mpr rfl))
      simp only [simplifyUnary, hx]
  | index x position =>
      have hx := form?_congr (hsame x (List.mem_singleton.mpr rfl))
      simp only [hx]
  | select c t f =>
      have hc := literal?_congr (hsame c List.mem_cons_self)
      simp only [hc]
  | smooth x tau =>
      have hx := literal?_congr (hsame x (List.mem_singleton.mpr rfl))
      simp only [hx]
  | rateLimit x rate =>
      have hx := literal?_congr (hsame x (List.mem_singleton.mpr rfl))
      simp only [hx]
  | edge x rising =>
      have hx := literal?_congr (hsame x (List.mem_singleton.mpr rfl))
      simp only [hx]
  | _ => rfl

end Congruence

/-- How often a form is replaced by another one, at most.  Literals move to the
right once, and merging goes down on the left. -/
def replacements (p : Pool α) : Form α → Nat
  | .binary _ x y => if (p.literal? y).isSome then x else y + 1
  | _ => 0

omit [Scalar α] in
/-- A pool has more nodes than there are replacements for a form of its nodes, in
whatever pool. -/
theorem replacements_le {p : Pool α} (q : Pool α) {form : Form α}
    (hdeps : ∀ d ∈ form.dependencies, p.Present d) : q.replacements form ≤ p.size + 2 := by
  cases form with
  | binary op x y =>
      have hx : x < p.size := hdeps x List.mem_cons_self
      have hy : y < p.size := hdeps y (List.mem_pair.mpr (Or.inr rfl))
      simp only [replacements]
      split
      · exact Nat.le_of_lt (Nat.lt_add_right 2 hx)
      · exact Nat.le_add_right_of_le hy
  | _ => exact Nat.zero_le _

/-- The replacement of a form is replaced less often. -/
def Replacing (p : Pool α) (bound : Nat) : Simplified α → Prop
  | .instead other => p.replacements other < bound
  | .merge _ x _ => x < bound
  | _ => True

section Replacing

variable {p : Pool α}

theorem mergeLiterals_replacing (hp : p.WellFormed) (op : BinaryOp) (x : ExprId) (c : Value α) :
    p.Replacing x (p.mergeLiterals op x c) := by
  unfold mergeLiterals
  split
  · next inner y z hform =>
      obtain ⟨n, hn, hnform⟩ := form?_eq_some hform
      have hy : y < x := hp.before hn y (by simp [Node.dependencies, hnform, Form.dependencies])
      split
      · split
        · exact hy
        · trivial
      · trivial
  · trivial

theorem simplifyRight_replacing (hp : p.WellFormed) (op : BinaryOp) (x : ExprId) (c : Value α)
    (kind : Kind) : p.Replacing x (p.simplifyRight op x c kind) := by
  unfold simplifyRight
  split
  case h_6 =>
    split
    · trivial
    · split
      · exact mergeLiterals_replacing hp .add x c
      · trivial
  case h_8 =>
    split
    · trivial
    · split
      · trivial
      · split
        · exact mergeLiterals_replacing hp .mul x c
        · trivial
  all_goals first
    | trivial
    | split <;> trivial

theorem simplifyBinary_replacing (hp : p.WellFormed) (op : BinaryOp) (x y : ExprId)
    (kind : Kind) :
    p.Replacing (p.replacements (.binary op x y)) (p.simplifyBinary op x y kind) := by
  unfold simplifyBinary
  dsimp only
  split
  · next v hx hy =>
      split
      · show p.replacements (.binary op y x) < p.replacements (.binary op x y)
        simp [replacements, hx, hy]
      · trivial
  · next c hy =>
      have hbound : p.replacements (.binary op x y) = x := by simp [replacements, hy]
      rw [hbound]
      exact simplifyRight_replacing hp op x c kind
  · trivial

theorem simplify_replacing (hp : p.WellFormed) (form : Form α) (kind : Kind) :
    p.Replacing (p.replacements form) (p.simplify form kind) := by
  unfold simplify
  cases p.evalLiterals? form with
  | some v => trivial
  | none =>
      cases form with
      | binary op x y => exact simplifyBinary_replacing hp op x y kind
      | unary op x =>
          dsimp only
          unfold simplifyUnary
          split <;> trivial
      | select c t f =>
          dsimp only
          split
          · trivial
          · trivial
          · split <;> trivial
      | index x position =>
          dsimp only
          split
          · split <;> trivial
          · split <;> trivial
          · trivial
      | smooth x tau =>
          dsimp only
          split <;> trivial
      | rateLimit x rate =>
          dsimp only
          split <;> trivial
      | edge x rising =>
          dsimp only
          split <;> trivial
      | _ => trivial

end Replacing

/-! ### Composite forms -/

/-- Building as a look at the pool, and what follows from it. -/
theorem buildWithin_eq (fuel : Nat) (form : Form α) :
    buildWithin fuel form = get >>= fun p =>
      match p.joinScopes .global form.dependencies with
      | .error e => throw e
      | .ok scope =>
        match p.infer form with
        | .error e => throw e
        | .ok kind =>
          settle fuel ⟨form, kind, scope, p.staysConstant form⟩
            (if p.folding then p.simplify form kind else .keep) := by
  funext p
  rw [buildWithin_apply, get_bind]
  cases p.joinScopes .global form.dependencies with
  | error e => rfl
  | ok scope => cases p.infer form <;> rfl

/-- More fuel than there can be replacements changes nothing. -/
theorem buildWithin_fuel {p : Pool α} (hp : p.WellFormed) {form : Form α} {fuel fuel' : Nat}
    (h : p.replacements form ≤ fuel) (h' : p.replacements form ≤ fuel') :
    buildWithin fuel form p = buildWithin fuel' form p := by
  induction fuel using Nat.strongRecOn generalizing fuel' form p with
  | _ fuel ih =>
    rw [buildWithin_apply, buildWithin_apply]
    cases p.joinScopes .global form.dependencies with
    | error e => rfl
    | ok scope =>
      cases p.infer form with
      | error e => rfl
      | ok kind =>
        have hbound : p.Replacing (p.replacements form)
            (if p.folding then p.simplify form kind else .keep) := by
          split
          · exact simplify_replacing hp form kind
          · trivial
        dsimp only
        generalize (if p.folding then p.simplify form kind else .keep) = s at hbound
        cases s with
        | instead other =>
            have hless : p.replacements other < p.replacements form := hbound
            obtain ⟨less, rfl⟩ := Nat.exists_eq_add_one.mpr (show 0 < fuel by omega)
            obtain ⟨less', rfl⟩ := Nat.exists_eq_add_one.mpr (show 0 < fuel' by omega)
            exact ih less (by omega) hp (by omega) (by omega)
        | merge op x c =>
            have hless : x < p.replacements form := hbound
            have hpos := Nat.zero_lt_of_lt hless
            obtain ⟨less, rfl⟩ := Nat.exists_eq_add_one.mpr (show 0 < fuel by omega)
            obtain ⟨less', rfl⟩ := Nat.exists_eq_add_one.mpr (show 0 < fuel' by omega)
            refine bind_congr_ok ?_
            intro d p' hconstant
            have hp' : p'.WellFormed := ((constant_sound c).grown hp hconstant).1
            -- The literal stands on the right, so only merging can go on.
            obtain ⟨w, hw⟩ := constant_literal hp hconstant
            have hx : p'.replacements (.binary op x d) = x := by simp [replacements, hw]
            refine ih less (Nat.lt_succ_self _) hp' ?_ ?_
            · rw [hx]
              exact Nat.le_of_lt_succ (Nat.lt_of_lt_of_le hless h)
            · rw [hx]
              exact Nat.le_of_lt_succ (Nat.lt_of_lt_of_le hless h')
        | _ => rfl

/-- What is settled can be repeated if what is built instead can. -/
theorem settle_replays {p : Pool α} (hp : p.WellFormed) {fuel : Nat} {n : Node α}
    {s : Simplified α} (hnode : Replays (intern n) Present p)
    (hwithin : Within (p.Present ·) s)
    (hbuild : ∀ {p : Pool α} {less : Nat} {form : Form α}, p.WellFormed → fuel = less + 1 →
      (∀ d ∈ form.dependencies, p.Present d) →
      Replays (buildWithin less form) Present p) :
    Replays (settle fuel n s) Present p := by
  cases s with
  | keep => exact hnode
  | existing id => exact replays_pure hp hwithin
  | value v => exact constant_replays hp v
  | instead other =>
      cases fuel with
      | zero => exact hnode
      | succ less => exact hbuild hp rfl hwithin.2
  | merge op x c =>
      cases fuel with
      | zero => exact hnode
      | succ less =>
          refine (constant_replays hp c).bind ?_
          intro d p' hpp' hd
          refine hbuild hpp'.wellFormed rfl ?_
          intro e he
          rcases List.mem_pair.mp he with rfl | rfl
          · exact Present.extend hwithin hpp'.extended
          · exact hd

theorem buildWithin_replays {p : Pool α} (hp : p.WellFormed) (fuel : Nat) {form : Form α}
    (hdeps : ∀ d ∈ form.dependencies, p.Present d) :
    Replays (buildWithin fuel form) Present p := by
  induction fuel using Nat.strongRecOn generalizing form p with
  | _ fuel ih =>
    rw [buildWithin_eq]
    refine replays_get ?_ ?_
    · cases hscope : p.joinScopes .global form.dependencies with
      | error e => exact replays_throw hp e _
      | ok scope =>
        cases hkind : p.infer form with
        | error e => exact replays_throw hp e _
        | ok kind =>
          refine settle_replays hp (intern_replays hp (intern_form_grows hscope hkind)) ?_ ?_
          · split
            · refine simplify_within ?_ hdeps kind
              intro id d form hform _ hid hd
              obtain ⟨n, hn, rfl⟩ := form?_eq_some hform
              exact Nat.lt_trans (hp.before hn d hd) hid
            · trivial
          · intro p less form hp hless hdeps
            exact ih less (by omega) hp hdeps
    · intro q hq
      have hsame := hq.extended.same hdeps
      simp only [joinScopes_congr hsame, infer_congr hsame, staysConstant_congr hsame,
        hq.extended.folding, simplify_congr hp hq.extended hdeps]

/-- **Building.**  A pool that has grown leaves more fuel than before, but no
more replacements. -/
theorem build_replays {p : Pool α} (hp : p.WellFormed) {form : Form α}
    (hdeps : ∀ d ∈ form.dependencies, p.Present d) :
    Replays (build form) Present p where
  embeds := (buildWithin_replays hp (p.size + 2) hdeps).embeds
  gives := (buildWithin_replays hp (p.size + 2) hdeps).gives
  again q hq := by
    have hreplays := buildWithin_replays hp (p.size + 2) hdeps
    have hpq := hreplays.embeds.trans hq
    have hbound := replacements_le q hdeps
    have hsize : p.size ≤ q.size := hpq.extended.size_le
    show buildWithin (q.size + 2) form q = restate q (buildWithin (p.size + 2) form p)
    rw [buildWithin_fuel hpq.wellFormed (by omega : q.replacements form ≤ q.size + 2) hbound]
    exact hreplays.again q hq

theorem binary_replays {p : Pool α} (hp : p.WellFormed) (op : BinaryOp) {x y : ExprId}
    (hx : p.Present x) (hy : p.Present y) :
    Replays (binary op x y) Present p := by
  refine build_replays hp ?_
  intro d hd
  rcases List.mem_pair.mp hd with rfl | rfl
  · exact hx
  · exact hy

/-- Conjunctions and disjunctions of a list. -/
theorem join_replays {p : Pool α} (hp : p.WellFormed) (op : BinaryOp) (v : Value α)
    {terms : List ExprId} (hterms : ∀ t ∈ terms, p.Present t) :
    Replays (constant v >>= fun first => terms.foldlM (binary op) first) Present p := by
  refine (constant_replays hp v).bind ?_
  intro first p' hpp' hfirst
  exact replays_foldlM (fun hp hx hy => binary_replays hp op hx hy) hpp'.wellFormed
    (fun t ht => (hterms t ht).extend hpp'.extended) hfirst

theorem custom_replays {p : Pool α} (hp : p.WellFormed) {form : CustomForm α}
    (hoperands : ∀ d ∈ form.operands, p.Present d) :
    Replays (custom form) Present p := by
  have hsound := custom_sound form p
  unfold custom at hsound ⊢
  dsimp only at hsound ⊢
  split
  · exact replays_throw hp _ _
  · next hfinite =>
    simp only [hfinite] at hsound
    split
    · next hempty =>
      rw [if_pos hempty] at hsound
      exact intern_replays hp hsound
    · exact build_replays hp hoperands

/-- Handles keep their meaning, since nothing is persisted. -/
theorem persisted_replays {p : Pool α} (hp : p.WellFormed) (handle : Nat) :
    Replays (persisted handle) Present p := by
  refine replays_get ?_ ?_
  · refine (replays_ofExcept hp (p.persistOf handle)).bind ?_
    rintro entry _ - ⟨-, rfl⟩
    refine (replays_ofExcept hp (p.kindOf entry.source)).bind ?_
    rintro kind _ - ⟨-, rfl⟩
    refine intern_replays hp (intern_leaf_sound
      (n := ⟨.persisted handle, kind, entry.target, false⟩) rfl rfl trivial rfl (by simp) _)
  · intro q hq
    have hentry : q.persistOf handle = p.persistOf handle := by
      simp only [persistOf, hq.persists]
    simp only [hentry]
    cases hfound : p.persistOf handle with
    | error e => rfl
    | ok entry =>
        have hmem : entry ∈ p.persists := by
          unfold persistOf at hfound
          split at hfound
          · next hget =>
            cases hfound
            exact List.mem_of_getElem? hget
          · cases hfound
        obtain ⟨scope, hscope, -⟩ := hp.persistent entry hmem
        obtain ⟨n, hn, -⟩ := scopeOf_eq_ok.mp hscope
        have hkind := kindOf_congr (hq.extended.get?_eq (lt_size_of_get? hn))
        show pure entry >>= _ = pure entry >>= _
        rw [pure_bind, pure_bind, hkind]

/-! ### Substitution -/

/-- All that a table leads to exists. -/
def Leads (p : Pool α) (t : Table ExprId ExprId) : Prop :=
  ∀ {id image : ExprId}, t.get? id = some image → p.Present image

omit [Scalar α] in
theorem Leads.extend {p q : Pool α} {t : Table ExprId ExprId} (h : p.Leads t)
    (hq : p.Extends q) : q.Leads t :=
  fun hget => (h hget).extend hq

omit [Scalar α] in
theorem Leads.insert {p : Pool α} {t : Table ExprId ExprId} (h : p.Leads t) {id image : ExprId}
    (himage : p.Present image) : p.Leads (t.insert id image) := by
  intro id' image' hget
  rcases Table.get?_insert_cases hget with ⟨rfl, rfl⟩ | hold
  · exact himage
  · exact h hold

theorem rebuild_replays {p : Pool α} (hp : p.WellFormed) {id : ExprId} (hid : p.Present id)
    (form : Form α) {images : List ExprId} (himages : ∀ d ∈ images, p.Present d) :
    Replays (rebuild id form images) Present p := by
  unfold rebuild
  split
  · exact replays_pure hp hid
  · split
    · next other hother =>
      refine build_replays hp ?_
      rw [Form.dependencies_of_withDependencies hother]
      exact himages
    · exact replays_throw hp _ _

theorem substituteAll_replays {p : Pool α} (hp : p.WellFormed)
    {one : ExprId → Rebuilt → Building α (ExprId × Rebuilt)}
    (hone : ∀ {q : Pool α} {id : ExprId} {done : Rebuilt}, p.Embeds q → q.Present id →
      q.Leads done → Replays (one id done) (fun r p' => p'.Present r.1 ∧ p'.Leads r.2) q)
    {ids : List ExprId} (hids : ∀ d ∈ ids, p.Present d) {done : Rebuilt} (hdone : p.Leads done) :
    Replays (substituteAll one ids done)
      (fun r p' => (∀ d ∈ r.1, p'.Present d) ∧ p'.Leads r.2) p := by
  induction ids generalizing p done with
  | nil => exact replays_pure hp ⟨by simp, hdone⟩
  | cons id rest ih =>
      refine (hone (.refl hp) (hids id List.mem_cons_self) hdone).bind ?_
      rintro ⟨image, done'⟩ p₁ hpp₁ ⟨himage, hdone'⟩
      have hrest : ∀ d ∈ rest, p₁.Present d :=
        fun d hd => (hids d (List.mem_cons_of_mem _ hd)).extend hpp₁.extended
      refine (ih hpp₁.wellFormed (fun hq => hone (hpp₁.trans hq)) hrest hdone').bind ?_
      rintro ⟨images, done''⟩ p₂ hpp₂ ⟨himages, hdone''⟩
      refine replays_pure hpp₂.wellFormed ⟨?_, hdone''⟩
      intro d hd
      rcases List.mem_cons.mp hd with rfl | hd
      · exact himage.extend hpp₂.extended
      · exact himages d hd

/-- **Substitution** looks at nothing but what exists already: the images, what
has been rebuilt, and operands. -/
theorem substituteWithin_replays {p : Pool α} (hp : p.WellFormed) {map : Table ExprId ExprId}
    (hmap : p.Leads map) (fuel : Nat) {id : ExprId} (hid : p.Present id) {done : Rebuilt}
    (hdone : p.Leads done) :
    Replays (substituteWithin map fuel id done) (fun r p' => p'.Present r.1 ∧ p'.Leads r.2) p := by
  induction fuel using Nat.strongRecOn generalizing p id done with
  | _ fuel ih =>
    unfold substituteWithin
    split
    · next image himage =>
      refine replays_pure hp ⟨?_, hdone⟩
      rcases Option.or_eq_some_iff.mp himage with h | ⟨-, h⟩
      · exact hmap h
      · exact hdone h
    · refine replays_get ?_ ?_
      · refine (replays_ofExcept hp (p.node id)).bind ?_
        rintro n _ - ⟨hnode, rfl⟩
        dsimp only
        split
        · exact replays_pure hp ⟨hid, hdone⟩
        · refine (replays_ofExcept hp (substitutable n.form)).bind ?_
          rintro _ _ - ⟨-, rfl⟩
          cases fuel with
          | zero => exact replays_pure hp ⟨hid, hdone⟩
          | succ fuel =>
            have hdeps : ∀ d ∈ n.form.dependencies, p.Present d := by
              intro d hd
              exact Nat.lt_trans (hp.before (node_eq_ok.mp hnode) d hd) hid
            refine (substituteAll_replays hp ?_ hdeps hdone).bind ?_
            · intro q id done hpq hid hdone
              exact ih fuel (Nat.lt_succ_self _) hpq.wellFormed (hmap.extend hpq.extended) hid hdone
            rintro ⟨images, done'⟩ p₁ hpp₁ ⟨himages, hdone'⟩
            have hid₁ := hid.extend hpp₁.extended
            refine (rebuild_replays hpp₁.wellFormed hid₁ n.form himages).bind ?_
            intro result p₂ hpp₂ hresult
            exact replays_pure hpp₂.wellFormed
              ⟨hresult, Leads.insert (Leads.extend hdone' hpp₂.extended) hresult⟩
      · intro q hq
        have hsame : q.node id = p.node id := by
          simp only [node, hq.extended.get?_eq hid]
        rw [hsame]

theorem substitute_replays {p : Pool α} (hp : p.WellFormed) {root : ExprId}
    (hroot : p.Present root) {map : Table ExprId ExprId} (hmap : p.Leads map) :
    Replays (substitute root map) Present p := by
  refine (substituteWithin_replays hp hmap (root + 1) hroot (by simp [Leads])).bind ?_
  rintro ⟨image, done⟩ p' hpp' ⟨himage, -⟩
  exact replays_pure hpp'.wellFormed himage

/-! ### Sequences of calls -/

omit [Scalar α] in
/-- The expressions that a call is given. -/
def Call.operands : Call α → List ExprId
  | unary _ x | index x _ | smooth x _ | rateLimit x _ | pre x _ | edge x _ | persist x _ => [x]
  | binary _ x y | compare _ x y | transform x y => [x, y]
  | select x y z | limit x y z | vector x y z => [x, y, z]
  | all terms | any terms | pack terms => terms
  | custom form => form.operands
  | substitute root map => root :: map.entries.flatMap fun e => [e.1, e.2]
  | _ => []

omit [Scalar α] in
/-- A call that hands out nothing new.  Every placeholder has a new number, and
every persisted value a new handle. -/
def Call.isRepeatable : Call α → Bool
  | placeholder _ _ _ | persist _ _ => false
  | _ => true

/-- What calls return one after another. -/
def results : List (Call α) → Pool α → List (Except (ExprError α) Nat)
  | [], _ => []
  | c :: rest, p => outcome (c.run p) :: results rest (c.perform p)

/-- Every call is given expressions that exist or that earlier calls have
returned. -/
def RefersBack (p : Pool α) (calls : List (Call α)) : Prop :=
  ∀ (i : Nat) (hi : i < calls.length), ∀ d ∈ (calls.get ⟨i, hi⟩).operands,
    p.Present d ∨ .ok d ∈ (results calls p).take i

omit [Scalar α] in
/-- The images of a substitution are among what the call is given. -/
theorem leads_of_operands {p : Pool α} {root : ExprId} {map : Table ExprId ExprId}
    (h : ∀ d ∈ (Call.substitute root map : Call α).operands, p.Present d) : p.Leads map := by
  intro id image hget
  have hentry := Table.mem_of_get? hget
  refine h image (List.mem_cons_of_mem _ (List.mem_flatMap.mpr ⟨(id, image), hentry, ?_⟩))
  simp

/-- **One call.** -/
theorem Call.run_replays {p : Pool α} (hp : p.WellFormed) {c : Call α}
    (hc : c.isRepeatable = true) (hoperands : ∀ d ∈ c.operands, p.Present d) :
    Replays c.run Present p := by
  cases c with
  | constant v => exact constant_replays hp v
  | sensor name kind => exact intern_replays hp (sensor_sound name kind p)
  | deviceSensor host device name kind =>
      exact intern_replays hp (deviceSensor_sound host device name kind p)
  | input name kind scope => exact intern_replays hp (input_sound name kind scope p)
  | parameter name kind => exact intern_replays hp (parameter_sound name kind p)
  | clock signal => exact intern_replays hp (clock_sound signal p)
  | relation source target => exact intern_replays hp (relation_sound source target p)
  | placeholder label kind scope => cases hc
  | persist source target => cases hc
  | all terms => exact join_replays hp .and (.boolean true) hoperands
  | any terms => exact join_replays hp .or (.boolean false) hoperands
  | custom form => exact custom_replays hp hoperands
  | substitute root map =>
      exact substitute_replays hp (hoperands root List.mem_cons_self) (leads_of_operands hoperands)
  | persisted handle => exact persisted_replays hp handle
  | _ => exact build_replays hp hoperands

/-- A first call that can be repeated gives the others what they refer to. -/
theorem RefersBack.tail {p : Pool α} {c : Call α} {rest : List (Call α)}
    (h : p.RefersBack (c :: rest)) (hc : Replays c.run Present p) :
    (c.perform p).RefersBack rest := by
  intro i hi d hd
  rcases h (i + 1) (Nat.succ_lt_succ hi) d hd with hknown | hresult
  · exact Or.inl (Present.extend hknown hc.embeds.extended)
  · rcases List.mem_cons.mp hresult with hfirst | hlater
    · refine Or.inl ?_
      unfold Call.perform
      cases hrun : c.run p with
      | ok id p' =>
          rw [hrun] at hfirst
          cases hfirst
          exact hc.gives _ p' hrun
      | error e p' =>
          rw [hrun] at hfirst
          cases hfirst
    · exact Or.inr hlater

/-- **All calls**, wherever the pool that they lead to embeds. -/
theorem performAll_again {p : Pool α} (hp : p.WellFormed) {calls : List (Call α)}
    (hcalls : ∀ c ∈ calls, c.isRepeatable = true) (hrefers : p.RefersBack calls) :
    p.Embeds (performAll calls p) ∧ ∀ q, (performAll calls p).Embeds q →
      results calls q = results calls p ∧ performAll calls q = q := by
  induction calls generalizing p with
  | nil => exact ⟨.refl hp, fun q _ => ⟨rfl, rfl⟩⟩
  | cons c rest ih =>
      have hfirst : Replays c.run Present p := by
        refine Call.run_replays hp (hcalls c List.mem_cons_self) ?_
        intro d hd
        rcases hrefers 0 (Nat.succ_pos _) d hd with hknown | hnone
        · exact hknown
        · cases hnone
      obtain ⟨hembeds, hagain⟩ := ih hfirst.embeds.wellFormed
        (fun c' hc' => hcalls c' (List.mem_cons_of_mem _ hc')) (hrefers.tail hfirst)
      refine ⟨hfirst.embeds.trans hembeds, ?_⟩
      intro q hq
      have hrun : c.run q = restate q (c.run p) := hfirst.again q (hembeds.trans hq)
      have hstays : c.perform q = q := by
        unfold Call.perform
        rw [hrun, finalState_restate]
      obtain ⟨hresults, hpool⟩ := hagain q hq
      constructor
      · show outcome (c.run q) :: results rest (c.perform q) = _
        rw [hrun, outcome_restate, hstays, hresults]
        rfl
      · show performAll rest (c.perform q) = q
        rw [hstays, hpool]

/-- **Repeated construction changes nothing.**  Make calls in any pool that
calls lead to, with folding or without it, but no calls for placeholders or new
handles.  Let every call refer to expressions that exist or that successful
calls before it returned.  The same calls in the pool that is left give the
same results, errors included, and leave that pool as it is. -/
theorem replay_idempotent {p : Pool α} (hp : p.Reachable) {calls : List (Call α)}
    (hcalls : ∀ c ∈ calls, c.isRepeatable = true) (hrefers : p.RefersBack calls) :
    results calls (performAll calls p) = results calls p ∧
      performAll calls (performAll calls p) = performAll calls p := by
  obtain ⟨hembeds, hagain⟩ := performAll_again hp.wellFormed hcalls hrefers
  exact hagain _ (.refl hembeds.wellFormed)

/-- Calls of which some add nothing, some are simplified and some fail: a sum
of literals that merge, a conjunction that stops at a number after it has added
a node, a substitution and a persisted value that nobody has handed out. -/
def Sample.repeated : List (Call Float) :=
  [.sensor "n" .integer, .constant (.integer 2), .binary .add 1 0, .constant (.integer 3),
    .binary .add 2 3, .sensor "ready" .boolean, .sensor "done" .boolean, .all [6, 7, 0],
    .substitute 5 ⟨[(0, 1)]⟩, .persisted 4]

theorem repeated_again :
    let p : Pool Float := { folding := true }
    let q := performAll Sample.repeated p
    (∀ c ∈ Sample.repeated, c.isRepeatable = true) ∧ p.RefersBack Sample.repeated ∧
      results Sample.repeated q = results Sample.repeated p ∧
      performAll Sample.repeated q = q ∧ q.size = 11 ∧
      (results Sample.repeated q)[8]? = some (.ok 10) ∧
      (results Sample.repeated q)[9]? = some (.error (.unknownHandle 4)) := by
  intro p q
  have hcalls : ∀ c ∈ Sample.repeated, c.isRepeatable = true := by decide
  have hrefers : p.RefersBack Sample.repeated := by
    unfold RefersBack
    decide +kernel
  have hreachable : p.Reachable := ⟨true, [], rfl⟩
  obtain ⟨hresults, hpool⟩ := replay_idempotent hreachable hcalls hrefers
  refine ⟨hcalls, hrefers, hresults, hpool, by decide +kernel, ?_, ?_⟩
  · rw [hresults]
    decide +kernel
  · rw [hresults]
    decide +kernel

end Pool

end SignalNet
