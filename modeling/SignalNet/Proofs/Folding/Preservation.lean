import SignalNet.Proofs.Pool.Kinds
import SignalNet.Proofs.Pool.Replay

/-!
# What folding preserves

Building a form may lead to another expression than a node of that form: an
operand, a part of an operand, a literal, or a node of a form that has taken its
place.  None of them changes the kind, and none can be used in fewer places than
the form that was asked for.

`Pool.build_enclosed` says that the joined scope encloses the scope of what is
built, and `Pool.build_preserves` puts this together with the kinds of
`Pool.build_yields`.  Without folding the node is the one that was asked for
(`Pool.buildWithin_interns`).
-/

namespace SignalNet

/-- Forms that structural sharing identifies are the same, but for the initial
value of a delay and the value of a literal. -/
theorem Form.eq_of_canonical_eq {α : Type} [Scalar α] {form form' : Form α}
    (h : form'.canonical = form.canonical) (hconstant : ∀ v, form ≠ .constant v)
    (hpre : ∀ x initial, form ≠ .pre x initial) : form' = form := by
  cases form with
  | constant v => exact absurd rfl (hconstant v)
  | pre x initial => exact absurd rfl (hpre x initial)
  | _ => cases form' <;> simp_all [Form.canonical]

namespace Pool

open Computing

variable {α : Type} [Scalar α]

/-- A custom form is never folded. -/
theorem simplify_custom (p : Pool α) (c : CustomForm α) (kind : Kind) :
    p.simplify (.custom c) kind = .keep :=
  rfl

/-- **What is built can be used where the form could be used.**  Operands and
literals are enclosed by the joined scope, and what is built from them inherits
that. -/
theorem build_enclosed {p q : Pool α} (hp : p.WellFormed) {form : Form α} {id : ExprId}
    {joined : Scope} (hjoined : p.joinScopes .global form.dependencies = .ok joined)
    (h : build form p = .ok id q) : q.Enclosed joined id := by
  obtain ⟨kind, -, hq⟩ := build_yields hp h
  by_cases hcomposite : form.isComposite = true
  · have hoperands := ((enclosed_joinScopes hjoined).mp joined.encloses_self).2
    refine (inherited_enclosed hq.wellFormed joined).build hp (.refl q) hcomposite ?_ h
    intro d hd
    exact (hoperands d hd).extend hq.extends
  · -- Only a custom form without operands is left, and it stays as it is.
    obtain ⟨scope, kind, hscope, hkind, hsettle⟩ := buildWithin_settles h
    obtain ⟨c, rfl, -⟩ := (isFixedLeaf_of_infer hkind).2.2 (eq_false_of_ne_true hcomposite)
    rw [simplify_custom, ite_self] at hsettle
    obtain ⟨m, hm, hcanonical⟩ := intern_eq_ok hp hsettle
    obtain ⟨-, -, hmscope, -⟩ := canonical_eq_parts hcanonical
    obtain rfl : scope = joined := Except.ok.inj (hscope.symm.trans hjoined)
    exact ⟨scope, scopeOf_eq_ok.mpr ⟨m, hm, hmscope⟩, scope.encloses_self⟩

/-- **Folding preserves kinds and widens no scope.**  Build any form in a pool
that calls lead to, with folding or without it.  If that succeeds, then the form
had a kind and its operands a joined scope, what is built is of that kind, and
the joined scope encloses its scope.

Without folding the scope of the node is the joined scope, and its form is the
one asked for: the same up to the values that structural sharing identifies, and
the very same unless it is a delay, whose initial value is shared. -/
theorem build_preserves {p q : Pool α} (hp : p.Reachable) {form : Form α} {id : ExprId}
    (h : build form p = .ok id q) :
    ∃ kind joined n, p.infer form = .ok kind ∧
      p.joinScopes .global form.dependencies = .ok joined ∧ q.get? id = some n ∧
      n.kind = kind ∧ joined.encloses n.scope = true ∧
      (p.folding = false → n.scope = joined ∧ n.form.canonical = form.canonical ∧
        ((∀ x initial, form ≠ .pre x initial) → n.form = form)) := by
  obtain ⟨joined, _, hjoined, -, -⟩ := buildWithin_settles h
  obtain ⟨kind, hkind, hid⟩ := buildWithin_kind hp.wellFormed h
  obtain ⟨n, hn, hnkind⟩ := kindOf_eq_ok.mp hid
  obtain ⟨inner, hinner, hencloses⟩ := build_enclosed hp.wellFormed hjoined h
  obtain ⟨n', hn', rfl⟩ := scopeOf_eq_ok.mp hinner
  obtain rfl : n = n' := Option.some.inj (hn.symm.trans hn')
  refine ⟨kind, joined, n, hkind, hjoined, hn, hnkind, hencloses, ?_⟩
  intro hfolding
  obtain ⟨scope, _, hscope, -, hintern⟩ := buildWithin_interns hfolding h
  obtain rfl : scope = joined := Except.ok.inj (hscope.symm.trans hjoined)
  obtain ⟨m, hm, hcanonical⟩ := intern_eq_ok hp.wellFormed hintern
  obtain rfl : n = m := Option.some.inj (hn.symm.trans hm)
  obtain ⟨hform, -, hmscope, -⟩ := canonical_eq_parts hcanonical
  refine ⟨hmscope, hform, ?_⟩
  intro hpre
  refine Form.eq_of_canonical_eq hform ?_ hpre
  rintro v rfl
  cases hkind

/-- A condition that always holds, and a reading of a context and of a command
to select from. -/
def Sample.switch (folding : Bool) : Pool Float :=
  performAll [.constant (.boolean true), .input "idle" .double (.context 1),
    .input "busy" .double (.command 1 2)] { folding }

/-- Folded, the selection is the reading of the context, which has the wider
scope.  Otherwise it is a node in the scope of the command. -/
theorem switch_preserves :
    (∃ q n, build (.select 0 1 2) (Sample.switch true) = .ok 1 q ∧ q.get? 1 = some n ∧
      n.kind = .double ∧ (Scope.command 1 2).encloses n.scope = true) ∧
    ∃ q n, build (.select 0 1 2) (Sample.switch false) = .ok 3 q ∧ q.get? 3 = some n ∧
      n.kind = .double ∧ n.scope = .command 1 2 ∧ n.form = .select 0 1 2 := by
  have hkind : ∀ folding, (Sample.switch folding).infer (.select 0 1 2) = .ok .double := by
    decide +kernel
  have hjoined : ∀ folding, (Sample.switch folding).joinScopes .global [0, 1, 2] =
      .ok (.command 1 2) := by
    decide +kernel
  refine ⟨?_, ?_⟩
  · have hresult : outcome (build (.select 0 1 2) (Sample.switch true)) = .ok 1 := by
      decide +kernel
    have hbuild := outcome_eq_ok hresult
    obtain ⟨kind, joined, n, hk, hj, hn, hnkind, hencloses, -⟩ :=
      build_preserves ⟨true, _, rfl⟩ hbuild
    obtain rfl : kind = .double := Except.ok.inj (hk.symm.trans (hkind true))
    obtain rfl : joined = .command 1 2 := Except.ok.inj (hj.symm.trans (hjoined true))
    exact ⟨_, n, hbuild, hn, hnkind, hencloses⟩
  · have hresult : outcome (build (.select 0 1 2) (Sample.switch false)) = .ok 3 := by
      decide +kernel
    have hbuild := outcome_eq_ok hresult
    obtain ⟨kind, joined, n, hk, hj, hn, hnkind, -, hplain⟩ :=
      build_preserves ⟨false, _, rfl⟩ hbuild
    obtain rfl : kind = .double := Except.ok.inj (hk.symm.trans (hkind false))
    obtain rfl : joined = .command 1 2 := Except.ok.inj (hj.symm.trans (hjoined false))
    obtain ⟨hscope, -, hform⟩ := hplain rfl
    exact ⟨_, n, hbuild, hn, hnkind, hscope, hform (by simp)⟩

end Pool

end SignalNet
