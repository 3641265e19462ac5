import Mathlib.Logic.Relation
import SignalNet.Proofs.Compile.Lowering

/-!
# Lowering by any rules

A rule, of any of the shapes of `Rule`, may put a block of its own in the place
of a node, or a constant, or a port that is there already, and it may lead from
one expression to another (`Program.Leads`).  So the positions in the pool no
longer say which expressions have been lowered before an expression is entered.

The descent itself says it.  Lowering succeeds only if no way from the
expression goes on for ever (`Program.Founded`), and then no way comes back to
where it began (`Program.Founded.irrefl`).  What is lowered on the way from an
expression is therefore different from it, and it is still missing when it is
entered.

* `Session.RuledBy` is what lowering one node comes to by any rule, and
  `Session.lowerWithin_eq_ok` the step from an expression to those that it leads
  to.
* `Session.lowerWithin_descends` is the induction, with nothing asked of the
  rules.
-/

namespace SignalNet

open Computing

variable {α : Type}

/-! ### Rules -/

/-- The nodes of a form are lowered the library's way if they are lowered at
all. -/
def Rules.Keeps (rules : Rules α) (form : Form α) : Prop :=
  ∀ key rule, rules.lookup? form.keys = some (key, rule) → rule = .standard

theorem Rules.standard_keeps (form : Form α) : Rules.standard.Keeps form :=
  fun _ _ => lookup?_standard

/-- So are the nodes of all forms of one sort. -/
def Rules.KeepAll (rules : Rules α) (sort : Form α → Bool) : Prop :=
  ∀ {form : Form α}, sort form = true → rules.Keeps form

theorem Rules.standard_keepAll (sort : Form α → Bool) : Rules.standard.KeepAll sort :=
  fun _ => standard_keeps _

/-- Rules do not tell apart what structural sharing identifies. -/
theorem Rules.Keeps.canonical [Scalar α] {rules : Rules α} {form form' : Form α}
    (h : rules.Keeps form) (hform : form'.canonical = form.canonical) : rules.Keeps form' := by
  have hkeys : form'.keys = form.keys :=
    Form.canonical_congr (by intro g; cases g <;> rfl) hform
  unfold Rules.Keeps
  rw [hkeys]
  exact h

namespace Program

variable {program : Program α} {id d : ExprId}

/-- Lowering an expression leads to its operands, and to where its rule says. -/
def Leads (program : Program α) (id d : ExprId) : Prop :=
  ∃ n, program.pool.get? id = some n ∧ (d ∈ n.dependencies ∨
    ∃ key, Rules.lookup? program.rules n.form.keys = some (key, .expression d))

/-- Where the rule for a node leads, if it leads anywhere. -/
def detour (program : Program α) (n : Node α) : List ExprId :=
  match Rules.lookup? program.rules n.form.keys with
  | some (_, .expression d) => [d]
  | _ => []

theorem mem_detour {n : Node α} : d ∈ program.detour n ↔
    ∃ key, Rules.lookup? program.rules n.form.keys = some (key, .expression d) := by
  unfold detour
  split
  · next key other hrule =>
    rw [List.mem_singleton, hrule]
    constructor
    · rintro rfl
      exact ⟨key, rfl⟩
    · rintro ⟨_, heq⟩
      cases heq
      rfl
  · next hrule =>
    constructor
    · rintro ⟨⟩
    · rintro ⟨key, heq⟩
      exact absurd heq (hrule key d)

/-- Every way that starts at an expression comes to an end. -/
def Founded (program : Program α) (id : ExprId) : Prop :=
  Acc (fun d id => program.Leads id d) id

/-- No way that starts at such an expression leads back to it. -/
theorem Founded.irrefl (h : program.Founded id) : ¬ Relation.TransGen program.Leads id id := by
  induction h with
  | intro id _ ih =>
      intro hback
      obtain ⟨d, hd, hrest⟩ := Relation.TransGen.head'_iff.mp hback
      exact ih d hd (Relation.TransGen.tail' hrest hd)

/-- By the rules of the library, expressions lead to those before them. -/
theorem Leads.lt [Scalar α] (hp : program.pool.WellFormed) (hrules : program.rules = .standard)
    (h : program.Leads id d) : d < id := by
  obtain ⟨n, hn, hd | ⟨key, hrule⟩⟩ := h
  · exact hp.before hn d hd
  · rw [hrules] at hrule
    cases Rules.lookup?_standard hrule

theorem founded_of_rules [Scalar α] (hp : program.pool.WellFormed)
    (hrules : program.rules = .standard) (id : ExprId) : program.Founded id :=
  Subrelation.accessible (Leads.lt hp hrules) (Nat.lt_wfRel.wf.apply id)

end Program

namespace Session

variable [Scalar α] {program : Program α} {id : ExprId} {n : Node α} {inputs : List PortId}
  {s s' : Session α} {q : PortId}

/-! ### One node -/

/-- What lowering one node comes to by any rule: what the library does, or else
a block, a constant, or a port that is there already. -/
inductive RuledBy (program : Program α) (id : ExprId) (n : Node α) (inputs : List PortId)
    (s : Session α) (q : PortId) (s' : Session α) : Prop
  | library (hby : LoweredBy program id n inputs s q s')
  | block {primitive : Primitive α} {kind : Kind} (hother : ¬ program.rules.Keeps n.form)
      (hrun : add primitive inputs kind s = .ok q s')
  | constant {v : Value α} (hother : ¬ program.rules.Keeps n.form)
      (hrun : constPort v s = .ok q s')
  | existing (hother : ¬ program.rules.Keeps n.form) (hsame : s' = s)

omit [Scalar α] in
/-- Only placeholders can be opened. -/
theorem openPlaceholder_form (hn : program.pool.get? id = some n)
    (hrun : openPlaceholder program.pool id s = .ok q s') :
    ∃ number label, n.form = .placeholder number label := by
  obtain ⟨m, _, hlookup, hafter⟩ := bind_eq_ok.mp hrun
  obtain ⟨hm, rfl⟩ := ofExpr_eq_ok.mp hlookup
  rw [Pool.node_eq_ok, hn] at hm
  cases hm
  cases hform : n.form with
  | placeholder number label => exact ⟨number, label, rfl⟩
  | _ =>
      simp only [hform] at hafter
      exact absurd hafter throw_ne_ok

/-- **A rule**, once the expression has been lowered that it leads to. -/
theorem applyRule_eq_ok {lower : ExprId → Lowering α PortId} {key : String} {rule : Rule α}
    (hn : program.pool.get? id = some n)
    (hrule : Rules.lookup? program.rules n.form.keys = some (key, rule))
    (hrun : applyRule program lower rule id n inputs s = .ok q s') :
    ∃ others t, lowerEach lower (program.detour n) s = .ok others t ∧
      RuledBy program id n inputs t q s' := by
  have hother : rule ≠ .standard → ¬ program.rules.Keeps n.form :=
    fun hne hkeeps => hne (hkeeps key rule hrule)
  -- All rules but one lead nowhere.
  have hstay : program.detour n = [] → RuledBy program id n inputs s q s' →
      ∃ others t, lowerEach lower (program.detour n) s = .ok others t ∧
        RuledBy program id n inputs t q s' := by
    intro hnone hby
    rw [hnone]
    exact ⟨[], s, rfl, hby⟩
  unfold applyRule at hrun
  cases rule with
  | standard => exact hstay (by rw [Program.detour, hrule]) (.library (lowerStandard_cases hrun))
  | block primitive kind =>
      exact hstay (by rw [Program.detour, hrule]) (.block (hother (by simp)) hrun)
  | constant v => exact hstay (by rw [Program.detour, hrule]) (.constant (hother (by simp)) hrun)
  | operand position =>
      refine hstay (by rw [Program.detour, hrule]) (.existing (hother (by simp)) ?_)
      cases hport : inputs[position]? with
      | some port =>
          simp only [hport] at hrun
          exact (pure_eq_ok.mp hrun).2.symm
      | none =>
          simp only [hport] at hrun
          exact absurd hrun throw_ne_ok
  | expression other =>
      have hdetour : program.detour n = [other] := by rw [Program.detour, hrule]
      rw [hdetour]
      exact ⟨[q], s', bind_eq_ok.mpr ⟨q, s', hrun, rfl⟩, .existing (hother (by simp)) rfl⟩
  | placeholder =>
      obtain ⟨number, label, hform⟩ := openPlaceholder_form hn hrun
      exact hstay (by rw [Program.detour, hrule]) (.library (.placeholder hform hrun))
  | custom => exact hstay (by rw [Program.detour, hrule]) (.block (hother (by simp)) hrun)
  | refuse reason => exact absurd hrun throw_ne_ok

/-- Lowering a node enters nothing by itself. -/
theorem RuledBy.lowered (h : RuledBy program id n inputs s q s') : s'.lowered = s.lowered := by
  have hsame : ∀ {x : Lowering α PortId}, Keeps SameEntries x → x s = .ok q s' →
      s'.lowered = s.lowered := by
    intro x hx hrun
    have hs := hx s
    rw [hrun] at hs
    exact hs
  cases h with
  | library hby => exact hby.lowered
  | block _ hrun => exact hsame (sameEntries_steady.laying.add _ _ _) hrun
  | constant _ hrun => exact hsame (sameEntries_steady.constPort _) hrun
  | existing _ heq => rw [heq]

/-! ### Whole expressions -/

/-- **One step down.**  An expression has a port already, or those that it leads
to are lowered first, and then its node. -/
theorem lowerWithin_eq_ok {fuel : Nat} (hrun : lowerWithin program (fuel + 1) id s = .ok q s') :
    s.lowered.get? id = some q ∧ s' = s ∨
      s.lowered.get? id = none ∧ ∃ n inputs others s₁ s₂ s₃, program.pool.get? id = some n ∧
        lowerEach (lowerWithin program fuel) n.dependencies s = .ok inputs s₁ ∧
        lowerEach (lowerWithin program fuel) (program.detour n) s₁ = .ok others s₂ ∧
        RuledBy program id n inputs s₂ q s₃ ∧ s' = s₃.entered id q := by
  obtain ⟨_, _, hget, hafter⟩ := bind_eq_ok.mp hrun
  obtain ⟨rfl, rfl⟩ := get_eq_ok.mp hget
  cases hfind : s.lowered.get? id with
  | some port =>
      simp only [hfind] at hafter
      obtain ⟨rfl, rfl⟩ := pure_eq_ok.mp hafter
      exact Or.inl ⟨rfl, rfl⟩
  | none =>
      simp only [hfind] at hafter
      obtain ⟨n, _, hlookup, hafter⟩ := bind_eq_ok.mp hafter
      obtain ⟨hnode, rfl⟩ := ofExpr_eq_ok.mp hlookup
      have hn := Pool.node_eq_ok.mp hnode
      obtain ⟨inputs, s₁, heach, hafter⟩ := bind_eq_ok.mp hafter
      cases hrule : Rules.lookup? program.rules n.form.keys with
      | none =>
          simp only [hrule] at hafter
          exact absurd hafter throw_ne_ok
      | some found =>
          obtain ⟨key, rule⟩ := found
          simp only [hrule] at hafter
          obtain ⟨port, s₃, happly, hafter⟩ := bind_eq_ok.mp hafter
          obtain ⟨rfl, -, rfl⟩ := enter_eq_ok hafter
          obtain ⟨others, s₂, hothers, hby⟩ := applyRule_eq_ok hn hrule happly
          exact Or.inr ⟨rfl, n, inputs, others, s₁, s₂, s₃, hn, heach, hothers, hby, rfl⟩

/-- What lowering an expression leaves, by whatever rules: the invariant holds,
the expression is entered, and so is what was entered before; nothing is entered
to which no way leads. -/
structure Descent (program : Program α) (I : Session α → Prop) (id : ExprId) (s : Session α)
    (q : PortId) (s' : Session α) : Prop where
  holds : I s'
  entry : s'.lowered.get? id = some q
  founded : program.Founded id
  kept : ∀ {j : ExprId} {port : PortId}, s.lowered.get? j = some port →
    s'.lowered.get? j = some port
  apart : ∀ {j : ExprId}, ¬ Relation.ReflTransGen program.Leads id j →
    s'.lowered.get? j = s.lowered.get? j

section Induction

variable {I : Session α → Prop}

omit [Scalar α] in
/-- Lowering expressions from left to right. -/
theorem lowerEach_descends {lower : ExprId → Lowering α PortId} {ids : List ExprId}
    (hlower : ∀ {id : ExprId} {s s' : Session α} {q : PortId}, I s → lower id s = .ok q s' →
      Descent program I id s q s')
    {ports : List PortId} (hs : I s) (hrun : lowerEach lower ids s = .ok ports s') :
    I s' ∧ List.Forall₂ (fun d q => s'.lowered.get? d = some q) ids ports ∧
      (∀ d ∈ ids, program.Founded d) ∧
      (∀ {j : ExprId} {port : PortId}, s.lowered.get? j = some port →
        s'.lowered.get? j = some port) ∧
      ∀ {j : ExprId}, (∀ d ∈ ids, ¬ Relation.ReflTransGen program.Leads d j) →
        s'.lowered.get? j = s.lowered.get? j := by
  induction ids generalizing s ports with
  | nil =>
      obtain ⟨rfl, rfl⟩ := pure_eq_ok.mp hrun
      exact ⟨hs, .nil, by simp, fun hj => hj, fun _ => rfl⟩
  | cons d rest ih =>
      obtain ⟨q, s₁, hfirst, hafter⟩ := bind_eq_ok.mp hrun
      obtain ⟨qs, s₂, hrest, hafter⟩ := bind_eq_ok.mp hafter
      obtain ⟨rfl, rfl⟩ := pure_eq_ok.mp hafter
      have hout := hlower hs hfirst
      obtain ⟨hI, hall, hfounded, hkept, hapart⟩ := ih hout.holds hrest
      refine ⟨hI, .cons (hkept hout.entry) hall, ?_, fun hj => hkept (hout.kept hj), ?_⟩
      · intro e he
        rcases List.mem_cons.mp he with rfl | he
        · exact hout.founded
        · exact hfounded e he
      · intro j hj
        rw [hapart fun e he => hj e (List.mem_cons_of_mem _ he),
          hout.apart (hj d List.mem_cons_self)]

/-- **Induction over lowering, by whatever rules.**  If `I` is kept when one node
is lowered and entered, with its operands entered before, then lowering any
expression keeps it.  The expressions that have been entered have to be founded,
so `I` has to say so. -/
theorem lowerWithin_descends
    (hfounded : ∀ {s : Session α} {id : ExprId} {q : PortId}, I s →
      s.lowered.get? id = some q → program.Founded id)
    (hstep : ∀ {id : ExprId} {n : Node α} {inputs : List PortId} {s s' : Session α} {q : PortId},
      program.pool.get? id = some n → program.Founded id → s.lowered.get? id = none → I s →
      List.Forall₂ (fun d q => s.lowered.get? d = some q) n.dependencies inputs →
      RuledBy program id n inputs s q s' → I (s'.entered id q)) :
    ∀ {fuel : Nat} {id : ExprId} {s s' : Session α} {q : PortId}, I s →
      lowerWithin program fuel id s = .ok q s' → Descent program I id s q s' := by
  intro fuel
  induction fuel with
  | zero =>
      intro id s s' q _ hrun
      exact absurd hrun throw_ne_ok
  | succ fuel ih =>
      intro id s s' q hs hrun
      rcases lowerWithin_eq_ok hrun with ⟨hfind, rfl⟩ |
        ⟨hnone, n, inputs, others, s₁, s₂, s₃, hn, heach, hothers, hby, rfl⟩
      · exact ⟨hs, hfind, hfounded hs hfind, fun hj => hj, fun _ => rfl⟩
      obtain ⟨hs₁, hinputs, hfounded₁, hkept₁, hapart₁⟩ := lowerEach_descends ih hs heach
      obtain ⟨hs₂, -, hfounded₂, hkept₂, hapart₂⟩ := lowerEach_descends ih hs₁ hothers
      have hleads : ∀ {d}, d ∈ n.dependencies ∨ d ∈ program.detour n → program.Leads id d :=
        fun hd => ⟨n, hn, hd.imp_right Program.mem_detour.mp⟩
      have hid : program.Founded id := by
        refine Acc.intro id ?_
        rintro d ⟨m, hm, hd⟩
        rw [hn] at hm
        cases hm
        rcases hd with hd | hd
        · exact hfounded₁ d hd
        · exact hfounded₂ d (Program.mem_detour.mpr hd)
      -- To what is not met on the way from the expression nothing happens on the
      -- way from those that it leads to.
      have hapart : ∀ {j}, ¬ Relation.TransGen program.Leads id j →
          s₂.lowered.get? j = s.lowered.get? j := by
        intro j hj
        rw [hapart₂ fun d hd hway => hj (.head' (hleads (Or.inr hd)) hway),
          hapart₁ fun d hd hway => hj (.head' (hleads (Or.inl hd)) hway)]
      have hfresh : s₂.lowered.get? id = none := (hapart hid.irrefl).trans hnone
      have hinputs₂ := hinputs.imp fun _ _ hd => hkept₂ hd
      refine ⟨hstep hn hid hfresh hs₂ hinputs₂ hby, Table.get?_insert_self _ _ _, hid, ?_, ?_⟩
      · intro j port hj
        have hne : j ≠ id := by
          rintro rfl
          rw [hnone] at hj
          cases hj
        show (s₃.lowered.insert id q).get? j = some port
        rw [Table.get?_insert_of_ne _ _ hne, hby.lowered]
        exact hkept₂ (hkept₁ hj)
      · intro j hj
        have hne : j ≠ id := by
          rintro rfl
          exact hj .refl
        show (s₃.lowered.insert id q).get? j = s.lowered.get? j
        rw [Table.get?_insert_of_ne _ _ hne, hby.lowered]
        exact hapart fun hway => hj hway.to_reflTransGen

end Induction

end Session

end SignalNet
