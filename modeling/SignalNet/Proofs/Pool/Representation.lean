import SignalNet.Proofs.Pool.Kinds
import SignalNet.Proofs.Pool.Substitution

/-!
# What a pool represents

A pool keeps three views of its expressions: the nodes in the order in which they
were added, the index that leads from a node to its position, and the positions
that calls have handed out.  This module says how they belong together.

* `Call.Answers` says what a call that succeeds returns: the position of the leaf
  it asks for, or of an expression of the kind of the form it asks for, which
  without folding is that form.
* `Call.run_answers` proves it of every call, one by one.
* `performAll_representation` is the result, for all sequences of calls.  It says
  besides that the index is exact and that positions are handed out for good.
-/

namespace SignalNet.Pool

open Computing

variable {α : Type} [Scalar α]

/-! ### What calls ask for -/

/-- The node that a call for a leaf asks for. -/
def Call.leaf? (p : Pool α) : Call α → Option (Node α)
  | constant v => some ⟨.constant v, v.kind, .global, true⟩
  | sensor name kind => some ⟨.sensor name none, kind, .global, false⟩
  | deviceSensor host device name kind =>
      some ⟨.sensor name (some device), kind,
        (host.contextOf device).elim .global .context, false⟩
  | input name kind scope => some ⟨.input name, kind, scope, false⟩
  | parameter name kind => some ⟨.parameter name, kind, .global, true⟩
  | clock signal => some ⟨.clock signal, .double, .global, false⟩
  | relation source target => some ⟨.relation source target, .transform, .global, false⟩
  | placeholder label kind scope =>
      some ⟨.placeholder p.nextPlaceholder label, kind, scope, false⟩
  | persisted handle =>
      match p.persistOf handle with
      | .ok entry => (p.kindOf entry.source).toOption.map fun kind =>
          ⟨.persisted handle, kind, entry.target, false⟩
      | .error _ => none
  | _ => none

/-- The form that a call asks for that builds a single one. -/
def Call.form? : Call α → Option (Form α)
  | unary op x => some (.unary op x)
  | binary op x y => some (.binary op x y)
  | compare op x y => some (.compare op x y)
  | select c t f => some (.select c t f)
  | limit x lo hi => some (.limit x lo hi)
  | pack parts => some (.pack parts)
  | index x position => some (.index x position)
  | vector x y z => some (.compose .vector [x, y, z])
  | transform position angles => some (.compose .transform [position, angles])
  | smooth x tau => some (.smooth x (Scalar.canonical tau))
  | rateLimit x rate => some (.rateLimit x (Scalar.canonical rate))
  | pre x initial => some (.pre x initial)
  | edge x rising => some (.edge x rising)
  | custom form =>
      some (.custom { form with parameters := form.parameters.map Scalar.canonical })
  | _ => none

/-- The node is the leaf that a call asks for.  If the call asks for a composite,
the node has the kind of its form, and without folding it has the form itself. -/
structure Call.Gets (c : Call α) (p : Pool α) (n : Node α) : Prop where
  leaf : ∀ {m}, c.leaf? p = some m → n.canonical = m.canonical
  kind : ∀ {form}, c.form? = some form → p.infer form = .ok n.kind
  form : ∀ {form}, c.form? = some form → p.folding = false →
    n.form.canonical = form.canonical

/-- What a call returns in the pool that it leaves.  Mostly this is the position
of what the call asks for.  A handle stands for the expression and the scope that
were given, and a substitution for the root itself returns the image as it is. -/
def Call.Answers (c : Call α) (p : Pool α) (id : Nat) (q : Pool α) : Prop :=
  match c with
  | .persist source target => q.persists[id]? = some ⟨source, target⟩
  | .substitute root map => map.get? root = some id ∨ ∃ n, q.get? id = some n
  | c => ∃ n, q.get? id = some n ∧ c.Gets p n

/-! ### What calls return -/

/-- Conjunctions, disjunctions and substitutions ask for several forms. -/
theorem Call.Gets.of_neither {c : Call α} {p : Pool α} (hleaf : c.leaf? p = none)
    (hform : c.form? = none) {n : Node α} : c.Gets p n where
  leaf hc := by simp [hleaf] at hc
  kind hc := by simp [hform] at hc
  form hc := by simp [hform] at hc

/-- A leaf that is interned. -/
theorem intern_gets {p q r : Pool α} (hq : q.WellFormed) {c : Call α} {n : Node α}
    (hleaf : ∀ {m}, c.leaf? p = some m → m = n) (hform : c.form? = none) {id : ExprId}
    (h : intern n q = .ok id r) : ∃ m, r.get? id = some m ∧ c.Gets p m := by
  obtain ⟨m, hm, hcanonical⟩ := intern_eq_ok hq h
  exact ⟨m, hm,
    { leaf := fun hc => by rw [hleaf hc, hcanonical]
      kind := fun hc => by simp [hform] at hc
      form := fun hc => by simp [hform] at hc }⟩

/-- A form that is built. -/
theorem build_gets {p q : Pool α} (hp : p.WellFormed) {c : Call α} {form : Form α}
    (hleaf : c.leaf? p = none) (hform : c.form? = some form) {id : ExprId}
    (h : build form p = .ok id q) : ∃ n, q.get? id = some n ∧ c.Gets p n := by
  obtain ⟨kind, hkind, hid⟩ := buildWithin_kind hp h
  obtain ⟨n, hn, rfl⟩ := kindOf_eq_ok.mp hid
  refine ⟨n, hn, ⟨(fun hc => by simp [hleaf] at hc), ?_, ?_⟩⟩
  · intro form' hc
    rw [hform] at hc
    cases hc
    exact hkind
  · intro form' hc hfolding
    rw [hform] at hc
    cases hc
    obtain ⟨_, _, -, -, hintern⟩ := buildWithin_interns hfolding h
    obtain ⟨m, hm, hcanonical⟩ := intern_eq_ok hp hintern
    obtain rfl := Option.some.inj (hn.symm.trans hm)
    exact (canonical_eq_parts hcanonical).1

/-- A custom form without operands is a leaf of its own. -/
theorem custom_gets {p q : Pool α} (hp : p.WellFormed) {form : CustomForm α} {id : ExprId}
    (h : custom form p = .ok id q) :
    ∃ n, q.get? id = some n ∧ (Call.custom form).Gets p n := by
  unfold custom at h
  cases hfind : (form.parameters.map Scalar.canonical).find? fun x => !Scalar.isFinite x with
  | some x =>
    simp only [hfind] at h
    cases h
  | none =>
    simp only [hfind] at h
    by_cases hempty : form.operands.isEmpty = true
    · rw [if_pos hempty] at h
      obtain ⟨n, hn, hcanonical⟩ := intern_eq_ok hp h
      obtain ⟨hform, hkind, -⟩ := canonical_eq_parts hcanonical
      refine ⟨n, hn, ⟨(fun hc => by cases hc), ?_, ?_⟩⟩
      · rintro _ ⟨⟩
        rw [hkind]
        simp only [infer, List.isEmpty_iff.mp hempty]
        rfl
      · rintro _ ⟨⟩ -
        exact hform
    · rw [if_neg hempty] at h
      exact build_gets hp rfl rfl h

/-- Terms that are joined one after the other. -/
theorem foldlM_present {op : BinaryOp} {terms : List ExprId} {first : ExprId} {p q : Pool α}
    (hp : p.WellFormed) (hfirst : ∃ n, p.get? first = some n) {id : ExprId}
    (h : terms.foldlM (binary op) first p = .ok id q) : ∃ n, q.get? id = some n := by
  induction terms generalizing first p with
  | nil =>
      obtain ⟨rfl, rfl⟩ := pure_eq_ok.mp h
      exact hfirst
  | cons t rest ih =>
      obtain ⟨joined, p₁, hjoined, hrest⟩ := bind_eq_ok.mp h
      obtain ⟨_, -, hp₁⟩ := build_yields hp hjoined
      obtain ⟨n, hn, -⟩ := kindOf_eq_ok.mp hp₁.kind
      exact ih hp₁.wellFormed ⟨n, hn⟩ hrest

/-- Conjunctions and disjunctions. -/
theorem join_present {op : BinaryOp} {b : Bool} {terms : List ExprId} {p q : Pool α}
    (hp : p.WellFormed) {id : ExprId}
    (h : (constant (.boolean b) >>= fun first => terms.foldlM (binary op) first) p = .ok id q) :
    ∃ n, q.get? id = some n := by
  obtain ⟨first, p₁, hfirst, hrest⟩ := bind_eq_ok.mp h
  have hp₁ := constant_yields hp hfirst
  obtain ⟨n, hn, -⟩ := kindOf_eq_ok.mp hp₁.kind
  exact foldlM_present hp₁.wellFormed ⟨n, hn⟩ hrest

/-- What is rebuilt is the expression itself or one that is built anew. -/
theorem rebuild_present {p q : Pool α} (hp : p.WellFormed) {root : ExprId}
    (hroot : ∃ n, p.get? root = some n) {form : Form α} {images : List ExprId} {id : ExprId}
    (h : rebuild root form images p = .ok id q) : ∃ n, q.get? id = some n := by
  unfold rebuild at h
  by_cases hsame : images = form.dependencies
  · rw [if_pos hsame] at h
    obtain ⟨rfl, rfl⟩ := pure_eq_ok.mp h
    exact hroot
  · rw [if_neg hsame] at h
    cases hother : form.withDependencies? images with
    | none =>
        rw [hother] at h
        cases h
    | some other =>
        rw [hother] at h
        obtain ⟨_, -, hq⟩ := build_yields hp h
        obtain ⟨n, hn, -⟩ := kindOf_eq_ok.mp hq.kind
        exact ⟨n, hn⟩

/-- A substitution returns the image of its root, the root or what was rebuilt. -/
theorem substitute_returns {p q : Pool α} (hp : p.WellFormed) {root : ExprId}
    {map : Table ExprId ExprId} {id : ExprId} (h : substitute root map p = .ok id q) :
    map.get? root = some id ∨ ∃ n, q.get? id = some n := by
  obtain ⟨⟨image, done⟩, _, hwithin, hreturn⟩ := bind_eq_ok.mp h
  obtain ⟨rfl, rfl⟩ := pure_eq_ok.mp hreturn
  cases hknown : map.get? root with
  | some found =>
      have hfound : (map.get? root).or (Table.empty.get? root) = some found := by
        rw [hknown]
        rfl
      rw [substituteWithin_known hfound] at hwithin
      cases hwithin
      exact Or.inl rfl
  | none =>
      have hunknown : (map.get? root).or (Table.empty.get? root) = none := by rw [hknown]; rfl
      refine Or.inr ?_
      cases hn : p.get? root with
      | none =>
          rw [substituteWithin_unknown hunknown hn] at hwithin
          cases hwithin
      | some n =>
          cases hleaf : n.form.isLeaf with
          | true =>
              rw [substituteWithin_leaf hunknown hn hleaf] at hwithin
              cases hwithin
              exact ⟨n, hn⟩
          | false =>
              rw [substituteWithin_composite hunknown hn hleaf] at hwithin
              obtain ⟨_, _, hallowed, h₃⟩ := bind_eq_ok.mp hwithin
              obtain ⟨-, rfl⟩ := ofExcept_eq_ok.mp hallowed
              obtain ⟨⟨images, made⟩, p₁, hall, h₄⟩ := bind_eq_ok.mp h₃
              obtain ⟨result, p₂, hrebuild, h₅⟩ := bind_eq_ok.mp h₄
              obtain ⟨heq, rfl⟩ := pure_eq_ok.mp h₅
              cases heq
              obtain ⟨hp₁, hextends⟩ :=
                (substituteAll_sound (substituteWithin_sound map root) _ _).grown hp hall
              exact rebuild_present hp₁ ⟨n, hextends.get? hn⟩ hrebuild

omit [Scalar α] in
theorem persist_answers {p q : Pool α} {source : ExprId} {target : Scope} {handle : Nat}
    (h : persist source target p = .ok handle q) :
    q.persists[handle]? = some ⟨source, target⟩ := by
  obtain ⟨_, _, hget, h₁⟩ := bind_eq_ok.mp h
  obtain ⟨rfl, rfl⟩ := get_eq_ok.mp hget
  obtain ⟨scope, _, hscope, h₂⟩ := bind_eq_ok.mp h₁
  obtain ⟨-, rfl⟩ := ofExcept_eq_ok.mp hscope
  split at h₂
  · obtain ⟨_, _, hset, h₃⟩ := bind_eq_ok.mp h₂
    obtain rfl := set_eq_ok.mp hset
    obtain ⟨rfl, rfl⟩ := pure_eq_ok.mp h₃
    simp
  · cases h₂

/-- **A call that succeeds returns what it asks for.** -/
theorem Call.run_answers {p q : Pool α} (hp : p.WellFormed) {c : Call α} {id : Nat}
    (h : c.run p = .ok id q) : c.Answers p id q := by
  cases c with
  | constant v => exact intern_gets hp (by rintro _ ⟨⟩; rfl) rfl h
  | sensor name kind => exact intern_gets hp (by rintro _ ⟨⟩; rfl) rfl h
  | deviceSensor host device name kind =>
      refine intern_gets hp ?_ rfl h
      rintro _ ⟨⟩
      cases host.contextOf device <;> rfl
  | input name kind scope => exact intern_gets hp (by rintro _ ⟨⟩; rfl) rfl h
  | parameter name kind => exact intern_gets hp (by rintro _ ⟨⟩; rfl) rfl h
  | clock signal => exact intern_gets hp (by rintro _ ⟨⟩; rfl) rfl h
  | relation source target => exact intern_gets hp (by rintro _ ⟨⟩; rfl) rfl h
  | placeholder label kind scope =>
      -- The counter moves on before the node is added.
      obtain ⟨_, _, hget, h₁⟩ := bind_eq_ok.mp h
      obtain ⟨rfl, rfl⟩ := get_eq_ok.mp hget
      obtain ⟨_, _, hset, h₂⟩ := bind_eq_ok.mp h₁
      obtain rfl := set_eq_ok.mp hset
      exact intern_gets (grows_count p hp).1 (by rintro _ ⟨⟩; rfl) rfl h₂
  | persisted handle =>
      obtain ⟨_, _, hget, h₁⟩ := bind_eq_ok.mp h
      obtain ⟨rfl, rfl⟩ := get_eq_ok.mp hget
      obtain ⟨entry, _, hlookup, h₂⟩ := bind_eq_ok.mp h₁
      obtain ⟨hentry, rfl⟩ := ofExcept_eq_ok.mp hlookup
      obtain ⟨kind, _, hsource, h₃⟩ := bind_eq_ok.mp h₂
      obtain ⟨hkind, rfl⟩ := ofExcept_eq_ok.mp hsource
      refine intern_gets hp ?_ rfl h₃
      intro m hm
      simp only [leaf?] at hm
      rw [hentry] at hm
      simp only [hkind, Except.toOption, Option.map_some, Option.some.injEq] at hm
      exact hm.symm
  | all terms =>
      obtain ⟨n, hn⟩ := join_present hp h
      exact ⟨n, hn, .of_neither rfl rfl⟩
  | any terms =>
      obtain ⟨n, hn⟩ := join_present hp h
      exact ⟨n, hn, .of_neither rfl rfl⟩
  | custom form => exact custom_gets hp h
  | substitute root map => exact substitute_returns hp h
  | persist source target => exact persist_answers h
  | _ => exact build_gets hp rfl rfl h

/-- **Representation of pools.**  After any sequence of calls, whether they
succeed or fail and whether folding is on or off:

* the nodes are structurally different, and the index leads from each of them,
  and from nothing else, to the position that holds it;
* operands stand before the nodes that use them;
* a composite node has the kind and the scope that its operands demand, and a
  literal has the kind of its value;
* a node is flagged constant exactly if it is a literal or a parameter, or a
  composite that does not look back and has constant operands only;
* placeholders have different numbers, all below the next one;
* a persisted value has a source whose scope encloses the target;
* a call that succeeds returns what it asks for (`Call.Answers`), and no later
  call changes what the position holds that was returned, or any other one. -/
theorem performAll_representation (folding : Bool) (calls : List (Call α)) :
    let p := performAll calls { folding }
    (∀ i j m n, p.get? i = some m → p.get? j = some n → m.canonical = n.canonical → i = j) ∧
    (∀ k i, p.positions.get? k = some i ↔ ∃ n, p.get? i = some n ∧ n.canonical = k) ∧
    (∀ n i, p.find? n = some i ↔ ∃ m, p.get? i = some m ∧ m.canonical = n.canonical) ∧
    (∀ i n, p.get? i = some n →
      (∀ d ∈ n.dependencies, d < i) ∧
      (n.form.isComposite = true →
        p.infer n.form = .ok n.kind ∧ p.joinScopes .global n.dependencies = .ok n.scope) ∧
      (∀ v, n.form = .constant v → n.kind = v.kind) ∧
      (n.constant = true ↔ n.form.isFixedLeaf = true ∨
        n.form.isComposite = true ∧ n.form.looksBack = false ∧
          ∀ d ∈ n.dependencies, p.isConstant d = true) ∧
      (∀ number label, n.form = .placeholder number label → number < p.nextPlaceholder ∧
        ∀ j m label', p.get? j = some m → m.form = .placeholder number label' → i = j)) ∧
    (∀ entry ∈ p.persists, ∃ scope,
      p.scopeOf entry.source = .ok scope ∧ scope.encloses entry.target = true) ∧
    (∀ (c : Call α) id q, c.run p = .ok id q → c.Answers p id q ∧
      ∀ later n, q.get? id = some n → (performAll later q).get? id = some n) ∧
    (∀ later i n, p.get? i = some n → (performAll later p).get? i = some n) := by
  intro p
  have hp : p.WellFormed := (performAll_grows calls _ (wellFormed_empty folding)).1
  refine ⟨fun _ _ _ _ => hp.distinct, fun _ _ => hp.positions_eq_some_iff,
    fun _ _ => hp.find?_eq_some_iff, ?_, hp.persistent, ?_, ?_⟩
  · intro i n hn
    have hadmits := hp.admitted hn
    refine ⟨hp.before hn, fun hc => ⟨hadmits.typed hc, hadmits.joined hc⟩, ?_,
      hp.constant_iff hn, ?_⟩
    · intro v hform
      have hleaf := hadmits.leaf (by rw [hform]; rfl)
      simp only [Node.OfLeaf, hform] at hleaf
      exact hleaf.1
    · intro number label hform
      exact ⟨hp.counted hn hform, fun j m label' hm hform' => hp.numbered hn hm hform hform'⟩
  · intro c id q h
    refine ⟨c.run_answers hp h, fun later n hn => ?_⟩
    exact (performAll_grows later q (c.run_sound.grown hp h).1).2.get? hn
  · intro later i n hn
    exact (performAll_grows later p hp).2.get? hn

end SignalNet.Pool
