import SignalNet.Proofs.Pool.Atomicity
import SignalNet.Proofs.Pool.Substitution

/-!
# Constructions that stop half-way

Conjunctions, disjunctions and substitutions make several expressions, one after
the other.  When a later step is refused, for its scope, its kind or a custom
form that permits no substitution, the steps before it are not taken back.  What
they have made stays in the pool, although the call has failed and nobody knows
its position.

So such a call is not atomic, but what it leaves is in order.

* `Pool.Made` relates pools of which the second has been made from the first by
  single constructions that succeeded.  Nothing that was there has changed.
* `Pool.Stepwise` says of a construction that it leaves what single constructions
  have made, and that it fails because of one more that was refused.  It composes
  (`Stepwise.bind`).
* `Pool.interrupted_call_leaves` is the result.  What a conjunction leaves is the
  conjunction of the terms in front of the refused one, and a call that is made
  once more fails alike and leaves nothing new.
-/

namespace SignalNet.Pool

open Computing

variable {α : Type} [Scalar α]

/-! ### Pools made by single constructions -/

/-- Literals and composite forms, made one after the other by constructions that
succeed, lead from the first pool to the second. -/
inductive Made (p : Pool α) : Pool α → Prop
  | none : Made p p
  | literal {q r : Pool α} {v : Value α} {id : ExprId} (before : Made p q)
      (hrun : constant v q = .ok id r) : Made p r
  | form {q r : Pool α} {form : Form α} {id : ExprId} (before : Made p q)
      (hrun : build form q = .ok id r) : Made p r

/-- A pool with the same persisted values and the same number for the next
placeholder. -/
def SameCounts (p q : Pool α) : Prop :=
  q.nextPlaceholder = p.nextPlaceholder ∧ q.persists = p.persists

omit [Scalar α] in
theorem sameCounts_trans {p q r : Pool α} (hpq : SameCounts p q) (hqr : SameCounts q r) :
    SameCounts p r :=
  ⟨hqr.1.trans hpq.1, hqr.2.trans hpq.2⟩

theorem intern_counts (n : Node α) : Keeps SameCounts (intern n) := by
  intro p
  unfold intern
  split <;> exact ⟨rfl, rfl⟩

theorem buildWithin_zero_counts (form : Form α) : Keeps SameCounts (buildWithin 0 form) := by
  intro p
  rw [buildWithin_apply]
  cases p.joinScopes .global form.dependencies with
  | error e => exact ⟨rfl, rfl⟩
  | ok scope =>
      cases p.infer form with
      | error e => exact ⟨rfl, rfl⟩
      | ok kind =>
          dsimp only
          cases (if p.folding then p.simplify form kind else .keep) with
          | existing id => exact ⟨rfl, rfl⟩
          | _ => exact intern_counts _ p

theorem buildWithin_counts (fuel : Nat) (form : Form α) :
    Keeps SameCounts (buildWithin fuel form) := by
  induction fuel generalizing form with
  | zero => exact buildWithin_zero_counts form
  | succ fuel ih =>
      intro p
      rw [buildWithin_succ]
      cases hnext : p.replacement? form with
      | none => exact buildWithin_zero_counts form p
      | some next =>
          obtain ⟨other, q⟩ := next
          obtain ⟨-, -, -, ⟨-, rfl⟩ | ⟨-, -, c, d, -, hd, -⟩⟩ := replacement?_eq_some hnext
          · exact ih other _
          · have hliteral := intern_counts ⟨.constant c, c.kind, .global, true⟩ p
            rw [show intern _ p = .ok d q from hd] at hliteral
            exact sameCounts_trans hliteral (ih other q)

namespace Made

variable {p q r : Pool α}

theorem trans (hpq : Made p q) (hqr : Made q r) : Made p r := by
  induction hqr with
  | none => exact hpq
  | literal _ hrun ih => exact .literal ih hrun
  | form _ hrun ih => exact .form ih hrun

/-- What is made only adds to a pool. -/
theorem grown (h : Made p q) (hp : p.WellFormed) : q.WellFormed ∧ p.Extends q := by
  induction h with
  | none => exact ⟨hp, .refl p⟩
  | literal _ hrun ih =>
      obtain ⟨hq, hextends⟩ := ih
      obtain ⟨hr, hextends'⟩ := (constant_sound _).grown hq hrun
      exact ⟨hr, hextends.trans hextends'⟩
  | form _ hrun ih =>
      obtain ⟨hq, hextends⟩ := ih
      obtain ⟨hr, hextends'⟩ := (build_sound _).grown hq hrun
      exact ⟨hr, hextends.trans hextends'⟩

theorem counts (h : Made p q) : SameCounts p q := by
  induction h with
  | none => exact ⟨rfl, rfl⟩
  | @literal q r v id _ hrun ih =>
      have hstep := intern_counts ⟨.constant v, v.kind, .global, true⟩ q
      rw [show intern _ q = .ok id r from hrun] at hstep
      exact sameCounts_trans ih hstep
  | @form q r form id _ hrun ih =>
      have hstep := buildWithin_counts (q.size + 2) form q
      rw [show buildWithin (q.size + 2) form q = .ok id r from hrun] at hstep
      exact sameCounts_trans ih hstep

/-- Where no node has been added, nothing has changed. -/
theorem eq_of_size (h : Made p q) (hp : p.WellFormed) (hsize : q.size = p.size) : q = p := by
  obtain ⟨hq, hextends⟩ := h.grown hp
  obtain ⟨hnext, hpersists⟩ := h.counts
  have hnodes := hextends.nodes.eq_of_length hsize.symm
  have hfolding := hextends.folding
  have hpositions : q.positions = p.positions := by rw [hq.indexed, hp.indexed, hnodes]
  cases p
  cases q
  simp_all

end Made

/-! ### Constructions step by step -/

/-- A single step that is refused: an expression that does not exist, a form that
permits no substitution, or a form that cannot be built.  It writes nothing. -/
inductive Refused (q : Pool α) : ExprError α → Prop
  | unknown {id : ExprId} (h : q.get? id = none) : Refused q (.unknownExpr id)
  | sealed {id : ExprId} {n : Node α} (h : q.get? id = some n) :
      Refused q (.unsupportedSubstitution n.form.typeName)
  | form {form : Form α} {e : ExprError α} (h : build form q = .error e q) : Refused q e

/-- What a construction leaves, whether it fails or not, has been made by single
constructions that succeeded.  It fails because of one more that is refused. -/
structure Stepwise {β : Type} (x : Building α β) (p : Pool α) : Prop where
  made : Made p (finalState (x p))
  refused : ∀ {e : ExprError α} {q : Pool α}, x p = .error e q → Refused q e

section Stepwise

variable {β γ : Type} {p : Pool α} {x : Building α β}

theorem stepwise_of_eq {y : Building α β} (h : x p = y p) (hy : Stepwise y p) : Stepwise x p where
  made := by
    rw [h]
    exact hy.made
  refused hrun := hy.refused (h.symm.trans hrun)

theorem stepwise_of_ok {b : β} (h : x p = .ok b p) : Stepwise x p where
  made := by
    rw [h]
    exact .none
  refused hrun := by
    rw [h] at hrun
    cases hrun

theorem stepwise_of_error {e : ExprError α} (h : x p = .error e p) (he : Refused p e) :
    Stepwise x p where
  made := by
    rw [h]
    exact .none
  refused hrun := by
    rw [h] at hrun
    cases hrun
    exact he

theorem stepwise_constant (v : Value α) (p : Pool α) : Stepwise (constant v) p := by
  obtain ⟨id, q, hrun⟩ := intern_total ⟨.constant v, v.kind, .global, true⟩ p
  have hrun : constant v p = .ok id q := hrun
  refine ⟨?_, fun herror => ?_⟩
  · rw [hrun]
    exact .literal .none hrun
  · rw [hrun] at herror
    cases herror

/-- A single form is built, or it is refused and leaves nothing. -/
theorem stepwise_build (hp : p.WellFormed) (form : Form α) : Stepwise (build form) p := by
  cases hrun : build form p with
  | ok id q =>
      refine ⟨?_, fun herror => ?_⟩
      · rw [hrun]
        exact .form .none hrun
      · rw [hrun] at herror
        cases herror
  | error e q =>
      obtain rfl := atomic_build form hp hrun
      exact stepwise_of_error hrun (.form hrun)

/-- **Composition.**  What follows starts in the pool that the first part
leaves. -/
theorem Stepwise.bind {f : β → Building α γ} (hp : p.WellFormed) (hx : Stepwise x p)
    (hf : ∀ {b : β} {q : Pool α}, x p = .ok b q → q.WellFormed → p.Extends q → Stepwise (f b) q) :
    Stepwise (x >>= f) p := by
  have hmade := hx.made
  cases hrun : x p with
  | ok b q =>
      rw [hrun] at hmade
      obtain ⟨hq, hextends⟩ := hmade.grown hp
      have hrest := hf hrun hq hextends
      refine ⟨?_, fun herror => ?_⟩
      · rw [bind_of_ok hrun]
        exact hmade.trans hrest.made
      · rw [bind_of_ok hrun] at herror
        exact hrest.refused herror
  | error e q =>
      rw [hrun] at hmade
      refine ⟨?_, fun herror => ?_⟩
      · rw [bind_of_error hrun]
        exact hmade
      · rw [bind_of_error hrun] at herror
        cases herror
        exact hx.refused hrun

theorem stepwise_foldlM {f : β → γ → Building α β}
    (hf : ∀ b c {q : Pool α}, q.WellFormed → Stepwise (f b c) q) (cs : List γ) (hp : p.WellFormed)
    (b : β) : Stepwise (cs.foldlM f b) p := by
  induction cs generalizing b p with
  | nil => exact stepwise_of_ok rfl
  | cons c rest ih =>
      rw [List.foldlM_cons]
      exact (hf b c hp).bind hp fun _ hq _ => ih hq _

/-- The terms of a conjunction or a disjunction are joined step by step. -/
theorem stepwise_join (hp : p.WellFormed) (op : BinaryOp) (v : Value α) (terms : List ExprId) :
    Stepwise (constant v >>= fun first => terms.foldlM (binary op) first) p :=
  (stepwise_constant v p).bind hp fun _ hq _ =>
    stepwise_foldlM (fun x y _ hq => stepwise_build hq (.binary op x y)) terms hq _

/-! ### Substitution -/

theorem stepwise_rebuild (hp : p.WellFormed) {id : ExprId} {n : Node α} (hn : p.get? id = some n)
    (images : List ExprId) : Stepwise (rebuild id n.form images) p := by
  unfold rebuild
  split
  · exact stepwise_of_ok rfl
  · split
    · exact stepwise_build hp _
    · exact stepwise_of_error rfl (.sealed hn)

theorem stepwise_substituteAll {one : ExprId → Rebuilt → Building α (ExprId × Rebuilt)}
    (hone : ∀ id done {q : Pool α}, q.WellFormed → Stepwise (one id done) q) (ids : List ExprId)
    (hp : p.WellFormed) (done : Rebuilt) : Stepwise (substituteAll one ids done) p := by
  induction ids generalizing done p with
  | nil => exact stepwise_of_ok rfl
  | cons id rest ih =>
      refine (hone id done hp).bind hp fun {first q} _ hq _ => ?_
      exact (ih hq first.2).bind hq fun _ _ _ => stepwise_of_ok rfl

omit [Scalar α] in
/-- A form that permits no substitution is named in the error. -/
theorem substitutable_eq_error {form : Form α} {e : ExprError α}
    (h : substitutable form = .error e) : e = .unsupportedSubstitution form.typeName := by
  cases form with
  | custom c =>
      cases hreplaceable : c.replaceable with
      | true => simp [substitutable, hreplaceable] at h
      | false =>
          simp only [substitutable, hreplaceable] at h
          cases h
          rfl
  | _ => cases h

theorem stepwise_substitutable {id : ExprId} {n : Node α} (hn : p.get? id = some n)
    {f : Unit → Building α β} (hf : Stepwise (f ()) p) :
    Stepwise (Building.ofExcept (substitutable n.form) >>= f) p := by
  cases hcheck : substitutable n.form with
  | ok u => exact stepwise_of_eq (bind_of_ok rfl) hf
  | error e =>
      refine stepwise_of_error (bind_of_error rfl) ?_
      rw [substitutable_eq_error hcheck]
      exact .sealed hn

/-- Without fuel nothing is rebuilt. -/
theorem substituteWithin_zero {map : Table ExprId ExprId} {id : ExprId} {done : Rebuilt}
    {n : Node α} (h : (map.get? id).or (done.get? id) = none) (hn : p.get? id = some n)
    (hleaf : n.form.isLeaf = false) :
    substituteWithin map 0 id done p =
      (Building.ofExcept (substitutable n.form) >>= fun _ => pure (id, done) :
        Building α (ExprId × Rebuilt)) p := by
  conv_lhs => unfold substituteWithin
  simp only [h, get_bind, node_eq_ok.mpr hn]
  rw [bind_of_ok (show Building.ofExcept (.ok n) p = .ok n p from rfl), if_neg (by simp [hleaf])]

/-- **Substitution goes step by step.** -/
theorem stepwise_substituteWithin (map : Table ExprId ExprId) (fuel : Nat) (hp : p.WellFormed)
    (id : ExprId) (done : Rebuilt) : Stepwise (substituteWithin map fuel id done) p := by
  induction fuel using Nat.strongRecOn generalizing p id done with
  | _ fuel ih =>
      cases hknown : (map.get? id).or (done.get? id) with
      | some image => exact stepwise_of_ok (substituteWithin_known hknown _)
      | none =>
          cases hn : p.get? id with
          | none => exact stepwise_of_error (substituteWithin_unknown hknown hn _) (.unknown hn)
          | some n =>
              cases hleaf : n.form.isLeaf with
              | true => exact stepwise_of_ok (substituteWithin_leaf hknown hn hleaf _)
              | false =>
                  cases fuel with
                  | zero =>
                      refine stepwise_of_eq (substituteWithin_zero hknown hn hleaf) ?_
                      exact stepwise_substitutable hn (stepwise_of_ok rfl)
                  | succ fuel =>
                      refine stepwise_of_eq (substituteWithin_composite hknown hn hleaf fuel) ?_
                      refine stepwise_substitutable hn ?_
                      have hoperands := stepwise_substituteAll
                        (fun d done q hq => ih fuel (Nat.lt_succ_self _) hq d done)
                        n.dependencies hp done
                      refine hoperands.bind hp fun {images q} _ hq hextends => ?_
                      exact (stepwise_rebuild hq (hextends.get? hn) images.1).bind hq
                        fun _ _ _ => stepwise_of_ok rfl

end Stepwise

/-! ### Calls -/

/-- Where the terms of a conjunction or a disjunction stop to join: those in front
of the refused one have been joined, and that is all. -/
theorem join_eq_error {p q : Pool α} (hp : p.WellFormed) {op : BinaryOp} {v : Value α}
    {terms : List ExprId} {e : ExprError α}
    (h : (constant v >>= fun first => terms.foldlM (binary op) first) p = .error e q) :
    ∃ before term after acc, terms = before ++ term :: after ∧
      (constant v >>= fun first => before.foldlM (binary op) first) p = .ok acc q ∧
      binary op acc term q = .error e q := by
  rcases bind_eq_error.mp h with hliteral | ⟨first, p₁, hliteral, hterms⟩
  · obtain ⟨id, r, hrun⟩ := intern_total ⟨.constant v, v.kind, .global, true⟩ p
    cases hliteral.symm.trans hrun
  · obtain ⟨before, term, after, acc, t, hsplit, hbefore, herror⟩ := foldlM_eq_error hterms
    have hp₁ := ((constant_sound v).grown hp hliteral).1
    have hjoined : Stepwise (before.foldlM (binary op) first) p₁ :=
      stepwise_foldlM (fun x y _ hq => stepwise_build hq (.binary op x y)) before hp₁ first
    have hmade := hjoined.made
    rw [hbefore] at hmade
    obtain rfl := atomic_build (.binary op acc term) (hmade.grown hp₁).1 herror
    exact ⟨before, term, after, acc, hsplit, bind_eq_ok.mpr ⟨first, p₁, hliteral, hbefore⟩, herror⟩

/-- A call that makes several expressions. -/
def Call.isCompound : Call α → Bool
  | .all _ | .any _ | .substitute _ _ => true
  | _ => false

/-- Where a conjunction or a disjunction has come to when a term is refused: the
terms in front of it are joined. -/
def Call.StopsAt (p q : Pool α) (e : ExprError α) : Call α → Prop
  | .all terms => ∃ before term after acc, terms = before ++ term :: after ∧
      Pool.all before p = .ok acc q ∧ Pool.binary .and acc term q = .error e q
  | .any terms => ∃ before term after acc, terms = before ++ term :: after ∧
      Pool.any before p = .ok acc q ∧ Pool.binary .or acc term q = .error e q
  | _ => True

/-- **What a compound call leaves that fails**, with folding or without it.  All
that is left has been made by single constructions that succeeded: nodes have
been added behind those that were there, nothing else has changed, and if none
has been added the pool is what it was.  The call has failed because of one more
construction that was refused and has left nothing; of a conjunction or a
disjunction the terms in front of that are joined.  Where the call is made once
more it fails with the same error and leaves the pool as it is. -/
theorem interrupted_call_leaves {p q : Pool α} (hp : p.Reachable) {c : Call α}
    (hcompound : c.isCompound = true) {e : ExprError α} (h : c.run p = .error e q) :
    Made p q ∧ (p.Extends q ∧ SameCounts p q ∧ q.WellFormed) ∧ (q.size = p.size → q = p) ∧
      Refused q e ∧ c.StopsAt p q e ∧
      ((∀ d ∈ c.operands, p.Present d) → c.run q = .error e q) := by
  have hwell := hp.wellFormed
  have hsteps : Stepwise c.run p := by
    cases c with
    | all terms => exact stepwise_join hwell .and (.boolean true) terms
    | any terms => exact stepwise_join hwell .or (.boolean false) terms
    | substitute root map =>
        exact (stepwise_substituteWithin map (root + 1) hwell root .empty).bind hwell
          fun _ _ _ => stepwise_of_ok rfl
    | _ => cases hcompound
  have hmade := hsteps.made
  rw [h] at hmade
  obtain ⟨hq, hextends⟩ := hmade.grown hwell
  refine ⟨hmade, ⟨hextends, hmade.counts, hq⟩, hmade.eq_of_size hwell, hsteps.refused h, ?_, ?_⟩
  · cases c with
    | all terms => exact join_eq_error hwell h
    | any terms => exact join_eq_error hwell h
    | _ => trivial
  · intro hoperands
    have hrepeatable : c.isRepeatable = true := by
      cases c with
      | placeholder label kind scope => cases hcompound
      | persist source target => cases hcompound
      | _ => rfl
    have hagain := (Call.run_replays hwell hrepeatable hoperands).again q
    rw [h] at hagain
    exact hagain (.refl hq)

/-- The negation of a global input, joined with another one, and inputs of two
contexts. -/
def Sample.crossroads : Pool Float :=
  performAll [.input "a" .boolean .global, .input "b" .boolean .global, .unary .not 0,
    .binary .and 2 1, .input "here" .boolean (.context 1), .input "there" .boolean (.context 2)]
    { folding := true }

/-- The negation of the input of one context is rebuilt before the other context
is met. -/
theorem crossroads_interrupted :
    ∃ q, (Call.substitute 3 ⟨[(0, 4), (1, 5)]⟩).run Sample.crossroads =
        .error (.scopeMismatch (.context 1) (.context 2)) q ∧
      Sample.crossroads.Extends q ∧ q.form? 6 = some (.unary .not 4) ∧ q.size = 7 ∧
      (Call.substitute 3 ⟨[(0, 4), (1, 5)]⟩).run q =
        .error (.scopeMismatch (.context 1) (.context 2)) q := by
  have hresult : outcome ((Call.substitute 3 ⟨[(0, 4), (1, 5)]⟩).run Sample.crossroads) =
      .error (.scopeMismatch (.context 1) (.context 2)) := by
    decide +kernel
  have hrun := outcome_eq_error hresult
  obtain ⟨-, ⟨hextends, -, -⟩, -, -, -, hagain⟩ := interrupted_call_leaves ⟨true, _, rfl⟩ rfl hrun
  exact ⟨_, hrun, hextends, by decide +kernel, by decide +kernel, hagain (by decide +kernel)⟩

/-- Two inputs of different contexts. -/
def Sample.strangers : Pool Float :=
  performAll [.input "here" .boolean (.context 1), .input "there" .boolean (.context 2)]
    { folding := true }

/-- The inputs of two contexts are not joined, but the literal that a conjunction
begins with stays. -/
theorem failed_conjunction_leaves_literal :
    ∃ q, (Call.all [0, 1]).run Sample.strangers =
        .error (.scopeMismatch (.context 1) (.context 2)) q ∧
      Sample.strangers.size = 2 ∧ q.size = 3 ∧ q.literal? 2 = some (.boolean true) := by
  have hresult : outcome ((Call.all [0, 1]).run Sample.strangers) =
      .error (.scopeMismatch (.context 1) (.context 2)) := by
    decide +kernel
  exact ⟨_, outcome_eq_error hresult, by decide +kernel, by decide +kernel, by decide +kernel⟩

end SignalNet.Pool
