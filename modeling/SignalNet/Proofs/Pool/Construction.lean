import SignalNet.Expr.Persist
import SignalNet.Expr.Substitute
import SignalNet.Proofs.Pool.WellFormed

/-!
# Constructions keep pools well formed

Every call of the construction interface takes a well-formed pool to a
well-formed pool that extends it, whether the call succeeds or stops with an
error.  The argument is made once for `Pool.buildWithin`, which everything but
the leaves goes through (`Pool.buildWithin_grows`); the other calls are put
together from it.

`Pool.Call` lists the calls, and a pool is *reachable* if a sequence of calls
leads to it from an empty pool.  `Pool.performAll_grows` is the result for
sequences of calls, so reachable pools are well formed.
-/

namespace SignalNet.Pool

open Computing

variable {α : Type} [Scalar α]

/-- A construction that keeps pools well formed and their nodes in place. -/
abbrev Sound {β : Type} (x : Building α β) : Prop :=
  Keeps Grows x

theorem Sound.bind {β γ : Type} {x : Building α β} {f : β → Building α γ}
    (hx : Sound x) (hf : ∀ b, Sound (f b)) : Sound (x >>= f) :=
  keeps_bind grows_trans hx hf

theorem sound_pure {β : Type} (b : β) : Sound (pure b : Building α β) :=
  keeps_pure grows_refl b

theorem sound_throw {β : Type} (e : ExprError α) : Sound (throw e : Building α β) :=
  keeps_throw grows_refl e

theorem sound_ofExcept {β : Type} (x : Except (ExprError α) β) :
    Sound (Building.ofExcept x) := by
  cases x with
  | ok b => exact sound_pure b
  | error e => exact sound_throw e

omit [Scalar α] in
theorem ofExcept_eq_ok {β : Type} {x : Except (ExprError α) β} {b : β} {p q : Pool α} :
    Building.ofExcept x p = .ok b q ↔ x = .ok b ∧ p = q := by
  cases x with
  | ok c => simp [Building.ofExcept]
  | error e => simp [Building.ofExcept]

/-- A construction that succeeds leaves a well-formed pool that extends the
one before. -/
theorem Sound.grown {β : Type} {x : Building α β} (hx : Sound x) {p q : Pool α}
    (hp : p.WellFormed) {b : β} (h : x p = .ok b q) : q.WellFormed ∧ p.Extends q := by
  have hgrows := hx p hp
  rwa [h] at hgrows

/-! ### Leaves -/

/-- A leaf that says itself what its node is can always be added. -/
theorem intern_leaf_sound {n : Node α} (hdeps : n.dependencies = [])
    (hleaf : n.form.isComposite = false) (hdata : n.OfLeaf)
    (hconstant : n.constant = n.form.isFixedLeaf)
    (hplaceholder : ∀ number label, n.form ≠ .placeholder number label) :
    Sound (intern n) := by
  intro p
  have hdeps' : n.form.dependencies = [] := hdeps
  have hstays : p.staysConstant n.form = false := by
    unfold staysConstant
    split <;> simp [hdeps']
  refine intern_grows (fun _ => ⟨?_, ?_, ?_, fun _ => hdata, ?_⟩) ?_
  · simp [hdeps]
  · simp [hleaf]
  · simp [hleaf]
  · simp [hstays, hconstant]
  · intro _ number label hform
    exact absurd hform (hplaceholder number label)

theorem constant_sound (v : Value α) : Sound (constant v) :=
  intern_leaf_sound rfl rfl ⟨rfl, rfl⟩ rfl (by simp)

theorem sensor_sound (name : String) (kind : Kind) : Sound (sensor (α := α) name kind) :=
  intern_leaf_sound rfl rfl trivial rfl (by simp)

theorem deviceSensor_sound (host : Host α) (device name : String) (kind : Kind) :
    Sound (deviceSensor host device name kind) :=
  intern_leaf_sound rfl rfl trivial rfl (by simp)

theorem input_sound (name : String) (kind : Kind) (scope : Scope) :
    Sound (input (α := α) name kind scope) :=
  intern_leaf_sound rfl rfl trivial rfl (by simp)

theorem parameter_sound (name : String) (kind : Kind) : Sound (parameter (α := α) name kind) :=
  intern_leaf_sound rfl rfl rfl rfl (by simp)

theorem clock_sound (signal : ClockSignal) : Sound (clock (α := α) signal) :=
  intern_leaf_sound rfl rfl ⟨rfl, rfl⟩ rfl (by simp)

theorem relation_sound (source target : String) : Sound (relation (α := α) source target) :=
  intern_leaf_sound rfl rfl ⟨rfl, rfl⟩ rfl (by simp)

/-- A pool in which only the counter of placeholders has moved on. -/
theorem grows_count (p : Pool α) :
    p.Grows { p with nextPlaceholder := p.nextPlaceholder + 1 } := by
  intro hp
  refine ⟨⟨hp.indexed, hp.distinct, hp.before, ?_, hp.numbered, ?_, hp.persistent⟩,
    ⟨rfl, List.prefix_rfl, Nat.le_succ _, List.prefix_rfl⟩⟩
  · intro i n hn
    exact (hp.admitted hn).extend ⟨rfl, List.prefix_rfl, Nat.le_succ _, List.prefix_rfl⟩
  · intro i number n label hn hform
    exact Nat.lt_succ_of_lt (hp.counted hn hform)

theorem placeholder_sound (label : String) (kind : Kind) (scope : Scope) :
    Sound (placeholder (α := α) label kind scope) := by
  intro p
  -- The counter moves on first, so the number given out is below it and unused.
  let q : Pool α := { p with nextPlaceholder := p.nextPlaceholder + 1 }
  let n : Node α := ⟨.placeholder p.nextPlaceholder label, kind, scope, false⟩
  show p.Grows (finalState (intern n q))
  intro hp
  have hq := grows_count p hp
  have hgrows : q.Grows (finalState (intern n q)) := by
    refine intern_grows (fun _ => ⟨?_, ?_, ?_, fun _ => trivial, rfl⟩) ?_
    · simp [n, Node.dependencies, Form.dependencies]
    · simp [n, Form.isComposite]
    · simp [n, Form.isComposite]
    · intro _ number label' hform
      simp only [n, Form.placeholder.injEq] at hform
      obtain ⟨rfl, -⟩ := hform
      refine ⟨Nat.lt_succ_self _, ?_⟩
      intro i m label'' hm hm'
      exact Nat.lt_irrefl _ (hp.counted hm hm')
  obtain ⟨hr, hext⟩ := hgrows hq.1
  exact ⟨hr, hq.2.trans hext⟩

/-! ### Composite forms -/

/-- What becomes of a form once its node is known and its simplification
decided. -/
def settle (fuel : Nat) (n : Node α) : Simplified α → Building α ExprId
  | .keep => intern n
  | .existing id => pure id
  | .value v => constant v
  | .instead other =>
    match fuel with
    | fuel + 1 => buildWithin fuel other
    | 0 => intern n
  | .merge op x c =>
    match fuel with
    | fuel + 1 => do
      let c ← constant c
      buildWithin fuel (.binary op x c)
    | 0 => intern n

/-- Building joins the scopes, infers the kind and settles the rest. -/
theorem buildWithin_apply (fuel : Nat) (form : Form α) (p : Pool α) :
    buildWithin fuel form p =
      match p.joinScopes .global form.dependencies with
      | .error e => .error e p
      | .ok scope =>
        match p.infer form with
        | .error e => .error e p
        | .ok kind =>
          settle fuel ⟨form, kind, scope, p.staysConstant form⟩
            (if p.folding then p.simplify form kind else .keep) p := by
  unfold buildWithin
  rw [get_bind]
  cases p.joinScopes .global form.dependencies with
  | error e => exact bind_of_error rfl
  | ok scope =>
      rw [bind_of_ok (show Building.ofExcept (.ok scope) p = .ok scope p from rfl)]
      cases p.infer form with
      | error e => exact bind_of_error rfl
      | ok kind =>
          rw [bind_of_ok (show Building.ofExcept (.ok kind) p = .ok kind p from rfl)]
          dsimp only
          cases (if p.folding then p.simplify form kind else .keep) <;> cases fuel <;> rfl

/-- Building that succeeds has joined the scopes of the operands and inferred the
kind, and ends as the simplification says. -/
theorem buildWithin_settles {fuel : Nat} {form : Form α} {p q : Pool α} {id : ExprId}
    (h : buildWithin fuel form p = .ok id q) :
    ∃ scope kind, p.joinScopes .global form.dependencies = .ok scope ∧
      p.infer form = .ok kind ∧
      settle fuel ⟨form, kind, scope, p.staysConstant form⟩
        (if p.folding then p.simplify form kind else .keep) p = .ok id q := by
  rw [buildWithin_apply] at h
  split at h
  · cases h
  · next scope hscope =>
    split at h
    · cases h
    · next kind hkind => exact ⟨scope, kind, hscope, hkind, h⟩

/-- **Without folding a form stays what it is.** -/
theorem buildWithin_interns {fuel : Nat} {form : Form α} {p q : Pool α} {id : ExprId}
    (hfolding : p.folding = false) (h : buildWithin fuel form p = .ok id q) :
    ∃ scope kind, p.joinScopes .global form.dependencies = .ok scope ∧
      p.infer form = .ok kind ∧
      intern ⟨form, kind, scope, p.staysConstant form⟩ p = .ok id q := by
  obtain ⟨scope, kind, hscope, hkind, hsettle⟩ := buildWithin_settles h
  rw [hfolding] at hsettle
  exact ⟨scope, kind, hscope, hkind, hsettle⟩

/-- A form that carries its kind itself cannot be built. -/
theorem isFixedLeaf_of_infer {p : Pool α} {form : Form α} {kind : Kind}
    (h : p.infer form = .ok kind) :
    form.isFixedLeaf = false ∧ (∀ number label, form ≠ .placeholder number label) ∧
      (form.isComposite = false → ∃ c, form = .custom c ∧ c.kind = kind) := by
  cases form <;>
    simp_all [infer, Form.isFixedLeaf, Form.isComposite]
  case custom c =>
    intro hempty
    rw [hempty] at h
    simpa [pure, Except.pure, bind, Except.bind] using h

/-- The node that a form stands for may be added once its scope and its kind
are known. -/
theorem admits_of_infer {p : Pool α} {form : Form α} {scope : Scope} {kind : Kind}
    (hscope : p.joinScopes .global form.dependencies = .ok scope)
    (hkind : p.infer form = .ok kind) :
    p.Admits ⟨form, kind, scope, p.staysConstant form⟩ := by
  obtain ⟨hfixed, -, hcustom⟩ := isFixedLeaf_of_infer hkind
  refine ⟨lt_size_of_joinScopes hscope, fun _ => hkind, fun _ => hscope, ?_, ?_⟩
  · intro hleaf
    obtain ⟨c, rfl, rfl⟩ := hcustom hleaf
    have hempty : c.operands = [] := by simpa [Form.isComposite] using hleaf
    simp only [Form.dependencies, hempty, joinScopes, Except.ok.injEq] at hscope
    exact ⟨rfl, hscope.symm⟩
  · simp [hfixed]

theorem intern_form_grows {p : Pool α} {form : Form α} {scope : Scope} {kind : Kind}
    (hscope : p.joinScopes .global form.dependencies = .ok scope)
    (hkind : p.infer form = .ok kind) :
    p.Grows (finalState (intern ⟨form, kind, scope, p.staysConstant form⟩ p)) :=
  intern_grows (fun _ => admits_of_infer hscope hkind) fun _ number label hform =>
    absurd hform ((isFixedLeaf_of_infer hkind).2.1 number label)

/-- Building a form keeps the pool well formed, however often it is replaced
by another one. -/
theorem buildWithin_sound (fuel : Nat) (form : Form α) : Sound (buildWithin fuel form) := by
  induction fuel generalizing form with
  | zero =>
      intro p
      rw [buildWithin_apply]
      split
      · exact grows_refl p
      · rename_i scope hscope
        split
        · exact grows_refl p
        · rename_i kind hkind
          cases (if p.folding then p.simplify form kind else .keep) with
          | existing id => exact grows_refl p
          | value v => exact constant_sound v p
          | _ => exact intern_form_grows hscope hkind
  | succ fuel ih =>
      intro p
      rw [buildWithin_apply]
      split
      · exact grows_refl p
      · rename_i scope hscope
        split
        · exact grows_refl p
        · rename_i kind hkind
          cases (if p.folding then p.simplify form kind else .keep) with
          | keep => exact intern_form_grows hscope hkind
          | existing id => exact grows_refl p
          | value v => exact constant_sound v p
          | instead other => exact ih other p
          | merge op x c =>
              exact Sound.bind (constant_sound c) (fun d => ih (.binary op x d)) p

theorem build_sound (form : Form α) : Sound (build form) := by
  intro p
  exact buildWithin_sound (p.size + 2) form p

theorem all_sound (terms : List ExprId) : Sound (all (α := α) terms) :=
  (constant_sound _).bind fun first =>
    keeps_foldlM grows_refl grows_trans (fun x y => build_sound (.binary .and x y)) terms first

theorem any_sound (terms : List ExprId) : Sound (any (α := α) terms) :=
  (constant_sound _).bind fun first =>
    keeps_foldlM grows_refl grows_trans (fun x y => build_sound (.binary .or x y)) terms first

theorem custom_sound (form : CustomForm α) : Sound (custom form) := by
  unfold custom
  dsimp only
  split
  · exact sound_throw _
  · split
    · rename_i hempty
      have hoperands : form.operands = [] := by simpa using hempty
      refine intern_leaf_sound hoperands ?_ ⟨rfl, rfl⟩ rfl (by simp)
      simp [Form.isComposite, hoperands]
    · exact build_sound _

/-! ### Substitution -/

theorem substituteAll_sound {one : ExprId → Rebuilt → Building α (ExprId × Rebuilt)}
    (hone : ∀ id done, Sound (one id done)) (ids : List ExprId) (done : Rebuilt) :
    Sound (substituteAll one ids done) := by
  induction ids generalizing done with
  | nil => exact sound_pure _
  | cons id rest ih =>
      refine (hone id done).bind ?_
      rintro ⟨image, done⟩
      refine (ih done).bind ?_
      rintro ⟨images, done⟩
      exact sound_pure _

theorem rebuild_sound (id : ExprId) (form : Form α) (images : List ExprId) :
    Sound (rebuild id form images) := by
  unfold rebuild
  split
  · exact sound_pure _
  · split
    · exact build_sound _
    · exact sound_throw _

theorem substituteWithin_sound (map : Table ExprId ExprId) (fuel : Nat) (id : ExprId)
    (done : Rebuilt) : Sound (substituteWithin (α := α) map fuel id done) := by
  induction fuel generalizing id done with
  | zero =>
      unfold substituteWithin
      split
      · exact sound_pure _
      · refine keeps_get_bind fun p => ?_
        refine Sound.bind (sound_ofExcept _) (fun n => ?_) p
        split
        · exact sound_pure _
        · exact (sound_ofExcept _).bind fun _ => sound_pure _
  | succ fuel ih =>
      unfold substituteWithin
      split
      · exact sound_pure _
      · refine keeps_get_bind fun p => ?_
        refine Sound.bind (sound_ofExcept _) (fun n => ?_) p
        split
        · exact sound_pure _
        · refine (sound_ofExcept _).bind fun _ => ?_
          refine (substituteAll_sound (fun id done => ih id done) _ _).bind ?_
          rintro ⟨images, done⟩
          exact (rebuild_sound _ _ _).bind fun _ => sound_pure _

theorem substitute_sound (root : ExprId) (map : Table ExprId ExprId) :
    Sound (substitute (α := α) root map) :=
  (substituteWithin_sound map (root + 1) root .empty).bind fun _ => sound_pure _

/-! ### Persisted values -/

theorem persist_sound (source : ExprId) (target : Scope) :
    Sound (persist (α := α) source target) := by
  intro p
  cases hscope : p.scopeOf source with
  | error e =>
      have hrun : persist source target p = .error e p := by
        unfold persist
        rw [get_bind, hscope]
        exact bind_of_error rfl
      rw [hrun]
      exact grows_refl p
  | ok scope =>
      have hlookup : Building.ofExcept (.ok scope) p = .ok scope p := rfl
      by_cases hencloses : scope.encloses target = true
      · let q : Pool α := { p with persists := p.persists ++ [⟨source, target⟩] }
        have hrun : persist source target p = .ok p.persists.length q := by
          unfold persist
          rw [get_bind, hscope, bind_of_ok hlookup, if_pos hencloses]
          rfl
        rw [hrun]
        intro hp
        have hext : p.Extends q :=
          ⟨rfl, List.prefix_rfl, Nat.le_refl _, List.prefix_append _ _⟩
        refine ⟨⟨hp.indexed, hp.distinct, hp.before, ?_, hp.numbered, hp.counted, ?_⟩, hext⟩
        · intro i n hn
          exact (hp.admitted hn).extend hext
        · intro entry hentry
          rcases List.mem_append.mp hentry with hold | hnew
          · exact hp.persistent entry hold
          · obtain rfl := List.mem_singleton.mp hnew
            exact ⟨scope, hscope, hencloses⟩
      · have hrun : persist source target p = .error (.scopeMismatch scope target) p := by
          unfold persist
          rw [get_bind, hscope, bind_of_ok hlookup, if_neg hencloses]
          rfl
        rw [hrun]
        exact grows_refl p

theorem persisted_sound (handle : Nat) : Sound (persisted (α := α) handle) := by
  refine keeps_get_bind fun p => ?_
  refine Sound.bind (sound_ofExcept _) (fun entry => ?_) p
  refine (sound_ofExcept _).bind fun kind => ?_
  exact intern_leaf_sound rfl rfl trivial rfl (by simp)

/-! ### Sequences of calls -/

/-- The calls of the construction interface. -/
inductive Call (α : Type)
  | constant (value : Value α)
  | sensor (name : String) (kind : Kind)
  | deviceSensor (host : Host α) (device name : String) (kind : Kind)
  | input (name : String) (kind : Kind) (scope : Scope)
  | parameter (name : String) (kind : Kind)
  | clock (signal : ClockSignal)
  | relation (source target : String)
  | placeholder (label : String) (kind : Kind) (scope : Scope)
  | unary (op : UnaryOp) (x : ExprId)
  | binary (op : BinaryOp) (x y : ExprId)
  | compare (op : CompareOp) (x y : ExprId)
  | select (condition ifTrue ifFalse : ExprId)
  | limit (value lower upper : ExprId)
  | all (terms : List ExprId)
  | any (terms : List ExprId)
  | pack (parts : List ExprId)
  | index (x : ExprId) (position : Nat)
  | vector (x y z : ExprId)
  | transform (position angles : ExprId)
  | smooth (x : ExprId) (timeConstant : α)
  | rateLimit (x : ExprId) (maxRate : α)
  | pre (x : ExprId) (initial : Value α)
  | edge (x : ExprId) (rising : Bool)
  | custom (form : CustomForm α)
  | substitute (root : ExprId) (map : Table ExprId ExprId)
  | persist (source : ExprId) (target : Scope)
  | persisted (handle : Nat)

/-- Make a call.  The result is the position of an expression, or the handle
of a persisted value. -/
def Call.run : Call α → Building α Nat
  | constant v => Pool.constant v
  | sensor name kind => Pool.sensor name kind
  | deviceSensor host device name kind => Pool.deviceSensor host device name kind
  | input name kind scope => Pool.input name kind scope
  | parameter name kind => Pool.parameter name kind
  | clock signal => Pool.clock signal
  | relation source target => Pool.relation source target
  | placeholder label kind scope => Pool.placeholder label kind scope
  | unary op x => Pool.unary op x
  | binary op x y => Pool.binary op x y
  | compare op x y => Pool.compare op x y
  | select c t f => Pool.select c t f
  | limit x lo hi => Pool.limit x lo hi
  | all terms => Pool.all terms
  | any terms => Pool.any terms
  | pack parts => Pool.pack parts
  | index x position => Pool.index x position
  | vector x y z => Pool.vector x y z
  | transform position angles => Pool.transform position angles
  | smooth x tau => Pool.smooth x tau
  | rateLimit x rate => Pool.rateLimit x rate
  | pre x initial => Pool.pre x initial
  | edge x rising => Pool.edge x rising
  | custom form => Pool.custom form
  | substitute root map => Pool.substitute root map
  | persist source target => Pool.persist source target
  | persisted handle => Pool.persisted handle

theorem Call.run_sound (c : Call α) : Sound c.run := by
  cases c with
  | constant v => exact constant_sound v
  | sensor name kind => exact sensor_sound name kind
  | deviceSensor host device name kind => exact deviceSensor_sound host device name kind
  | input name kind scope => exact input_sound name kind scope
  | parameter name kind => exact parameter_sound name kind
  | clock signal => exact clock_sound signal
  | relation source target => exact relation_sound source target
  | placeholder label kind scope => exact placeholder_sound label kind scope
  | all terms => exact all_sound terms
  | any terms => exact any_sound terms
  | custom form => exact custom_sound form
  | substitute root map => exact substitute_sound root map
  | persist source target => exact persist_sound source target
  | persisted handle => exact persisted_sound handle
  | _ => exact build_sound _

/-- The pool after a call, successful or not. -/
def Call.perform (c : Call α) (p : Pool α) : Pool α :=
  finalState (c.run p)

/-- The pool after a sequence of calls. -/
def performAll (calls : List (Call α)) (p : Pool α) : Pool α :=
  calls.foldl (fun p c => c.perform p) p

/-- A pool to which calls lead from an empty one. -/
def Reachable (p : Pool α) : Prop :=
  ∃ folding calls, performAll calls { folding } = p

theorem performAll_grows (calls : List (Call α)) (p : Pool α) : p.Grows (performAll calls p) := by
  induction calls generalizing p with
  | nil => exact grows_refl p
  | cons c rest ih => exact grows_trans _ _ _ (c.run_sound p) (ih (c.perform p))

theorem Reachable.wellFormed {p : Pool α} (h : p.Reachable) : p.WellFormed := by
  obtain ⟨folding, calls, rfl⟩ := h
  exact (performAll_grows calls _ (wellFormed_empty folding)).1

/-- Calls lead on from a reachable pool. -/
theorem Reachable.performAll {p : Pool α} (h : p.Reachable) (calls : List (Call α)) :
    (performAll calls p).Reachable := by
  obtain ⟨folding, before, rfl⟩ := h
  refine ⟨folding, before ++ calls, ?_⟩
  exact List.foldl_append

/-- A form with a kind of its own making has operands. -/
theorem dependencies_ne_nil {p : Pool α} {form : Form α} {kind : Kind}
    (hkind : p.infer form = .ok kind) (hcomposite : form.isComposite = true) :
    form.dependencies ≠ [] := by
  cases form with
  | pack parts =>
      rintro rfl
      simp [infer] at hkind
  | compose c parts =>
      rintro rfl
      cases c <;>
        simp [infer, fitting, Composite.parts, bind, Except.bind, pure, Except.pure] at hkind
  | custom c => simpa [Form.isComposite, Form.dependencies] using hcomposite
  | _ => simp_all [Form.isComposite, Form.dependencies]

/-- A node never changes its value if it is a fixed leaf, or if it does not
look back and none of its operands changes. -/
theorem WellFormed.constant_iff {p : Pool α} (hp : p.WellFormed) {i : ExprId} {n : Node α}
    (hn : p.get? i = some n) :
    n.constant = true ↔ n.form.isFixedLeaf = true ∨
      n.form.isComposite = true ∧ n.form.looksBack = false ∧
        ∀ d ∈ n.dependencies, p.isConstant d = true := by
  have hadmits := hp.admitted hn
  have hstays : p.staysConstant n.form = true ↔ n.form.isComposite = true ∧
      n.form.looksBack = false ∧ ∀ d ∈ n.dependencies, p.isConstant d = true := by
    have htyped := hadmits.typed
    have hne := fun hc => dependencies_ne_nil (htyped hc) hc
    cases hform : n.form <;>
      simp_all [staysConstant, Form.isComposite, Form.looksBack, Form.dependencies,
        Node.dependencies]
  rw [hadmits.constancy, Bool.or_eq_true, hstays]

end SignalNet.Pool
