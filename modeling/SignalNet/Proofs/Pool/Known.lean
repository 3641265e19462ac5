import SignalNet.Expr.Probe
import SignalNet.Proofs.Pool.Course
import SignalNet.Proofs.Pool.Kinds

/-!
# What is known before a network runs

An expression is *known* if its value can be derived from literals and from
the last readings of sensors alone (`Pool.Known`).  A probe walks down the
operands with a table of what it has found so far, and what it finds is known:

* `Pool.cheapWithin_known` is the induction, with a table of known values as
  its invariant;
* `Pool.cheapValue?_known` is the result.

Everything that a known expression reaches is known with it
(`Pool.Known.reaches`).
-/

namespace SignalNet

/-- The input of a filter. -/
def Form.filtered? {α : Type} : Form α → Option ExprId
  | .smooth x _ | .rateLimit x _ => some x
  | _ => none

namespace Pool

open Computing

variable {α : Type} [Scalar α]

/-- The value of an expression is known to the host.  A filter of something
known starts at it. -/
inductive Known (p : Pool α) (host : Host α) : ExprId → Value α → Prop
  | constant {id : ExprId} {n : Node α} {v : Value α} (hnode : p.get? id = some n)
      (hform : n.form = .constant v) : Known p host id v
  | sensor {id : ExprId} {n : Node α} {name : String} {device : Option String} {v : Value α}
      (hnode : p.get? id = some n) (hform : n.form = .sensor name device)
      (hreading : host.reading name = some v) (hkind : v.kind = n.kind) : Known p host id v
  | relation {id : ExprId} {n : Node α} {source target : String} {v : Value α}
      (hnode : p.get? id = some n) (hform : n.form = .relation source target)
      (hvalue : host.relationValue? source target = some v) : Known p host id v
  | filter {id x : ExprId} {n : Node α} {v : Value α} (hnode : p.get? id = some n)
      (hform : n.form.filtered? = some x) (hinput : Known p host x v) : Known p host id v
  | operator {id : ExprId} {n : Node α} {args : List (Value α)} {v : Value α}
      (hnode : p.get? id = some n) (hpure : n.form.isPure = true)
      (hargs : List.Forall₂ (Known p host) n.dependencies args)
      (hvalue : n.form.eval? args = some v) : Known p host id v

/-- All values in a table of findings are known. -/
def Justified (p : Pool α) (host : Host α) (found : Found (Option (Value α))) : Prop :=
  ∀ {id : ExprId} {v : Value α}, found.get? id = some (some v) → p.Known host id v

/-- A probe that has found something: its table is justified if it was, and its
value is known. -/
def Finds (p : Pool α) (host : Host α) (id : ExprId)
    (probe : StateM (Found (Option (Value α))) (Option (Value α))) : Prop :=
  ∀ {found : Found (Option (Value α))}, p.Justified host found → p.Justified host (probe found).2 ∧
    ∀ {v : Value α}, (probe found).1 = some v → p.Known host id v

variable {p : Pool α} {host : Host α}

/-- Entering a known value keeps a table justified. -/
theorem Justified.remember {found : Found (Option (Value α))} (h : p.Justified host found)
    {id : ExprId} {x : Option (Value α)} (hx : ∀ {v : Value α}, x = some v → p.Known host id v) :
    p.Justified host (Pool.remember id x found).2 ∧
      ∀ {v : Value α}, (Pool.remember id x found).1 = some v → p.Known host id v := by
  refine ⟨?_, hx⟩
  intro j w hj
  rcases Table.get?_insert_cases hj with ⟨rfl, hsame⟩ | hold
  · exact hx hsame
  · exact h hold

section CheapAll

variable {one : ExprId → StateM (Found (Option (Value α))) (Option (Value α))} {id : ExprId}
  {rest : List ExprId} {found after : Found (Option (Value α))}

omit [Scalar α] in
/-- An operand without a value ends the probe of the operands. -/
theorem cheapAll_stop (hfirst : one id found = (none, after)) :
    cheapAll one (id :: rest) found = (none, after) := by
  simp only [cheapAll, state_bind, hfirst, state_pure]

omit [Scalar α] in
theorem cheapAll_next {v : Value α} (hfirst : one id found = (some v, after)) :
    cheapAll one (id :: rest) found =
      (((cheapAll one rest after).1).map (v :: ·), (cheapAll one rest after).2) := by
  simp only [cheapAll, state_bind, hfirst, state_pure]

end CheapAll

/-- Probing operands from left to right. -/
theorem cheapAll_known {one : ExprId → StateM (Found (Option (Value α))) (Option (Value α))}
    {ids : List ExprId} (hone : ∀ id ∈ ids, p.Finds host id (one id))
    {found : Found (Option (Value α))} (h : p.Justified host found) :
    p.Justified host (cheapAll one ids found).2 ∧
      ∀ {args : List (Value α)}, (cheapAll one ids found).1 = some args →
        List.Forall₂ (p.Known host) ids args := by
  induction ids generalizing found with
  | nil =>
      refine ⟨h, ?_⟩
      rintro args ⟨⟩
      exact List.Forall₂.nil
  | cons id rest ih =>
      obtain ⟨hjustified, hknown⟩ := hone id (by simp) h
      cases hfirst : one id found with
      | mk x after =>
          rw [hfirst] at hjustified hknown
          cases x with
          | none =>
              rw [cheapAll_stop hfirst]
              exact ⟨hjustified, fun hnone => by cases hnone⟩
          | some v =>
              obtain ⟨hrest, hargs⟩ := ih (fun j hj => hone j (by simp [hj])) hjustified
              rw [cheapAll_next hfirst]
              refine ⟨hrest, ?_⟩
              intro args hmap
              obtain ⟨tail, htail, rfl⟩ := Option.map_eq_some_iff.mp hmap
              exact List.Forall₂.cons (hknown rfl) (hargs htail)

/-- Probing an operator. -/
theorem operator_known {one : ExprId → StateM (Found (Option (Value α))) (Option (Value α))}
    {id : ExprId} {n : Node α} (hone : ∀ d ∈ n.dependencies, p.Finds host d (one d))
    (hnode : p.get? id = some n) :
    p.Finds host id
      (if n.form.isPure then do
        match ← cheapAll one n.form.dependencies with
        | none => pure none
        | some args => remember id (n.form.eval? args)
      else remember id none) := by
  intro found h
  by_cases hpure : n.form.isPure = true
  · obtain ⟨hjustified, hknown⟩ := cheapAll_known hone h
    have hargs : cheapAll one n.form.dependencies found =
        ((cheapAll one n.dependencies found).1, (cheapAll one n.dependencies found).2) := rfl
    simp only [hpure, if_true, state_bind, hargs]
    cases hall : (cheapAll one n.dependencies found).1 with
    | none => exact ⟨hjustified, fun hv => by cases hv⟩
    | some args => exact hjustified.remember fun hv => .operator hnode hpure (hknown hall) hv
  · simp only [hpure]
    exact h.remember fun hv => by cases hv

/-- What a probe does at a node that it has not met before; `one` probes the
operands. -/
def probeNode (p : Pool α) (host : Host α)
    (one : ExprId → StateM (Found (Option (Value α))) (Option (Value α))) (id : ExprId)
    (n : Node α) : StateM (Found (Option (Value α))) (Option (Value α)) :=
  match n.form with
  | .constant v => remember id (some v)
  | .sensor name _ =>
    remember id ((host.reading name).filter fun v => decide (v.kind = n.kind))
  | .relation source target => remember id (host.relationValue? source target)
  | .smooth x _ | .rateLimit x _ =>
    if p.isConstant x then do remember id (← one x)
    else remember id none
  | form =>
    if form.isPure then do
      match ← cheapAll one form.dependencies with
      | none => pure none
      | some args => remember id (form.eval? args)
    else remember id none

/-- What the table holds is not looked for again. -/
theorem cheapWithin_found {fuel : Nat} {id : ExprId} {x : Option (Value α)}
    {found : Found (Option (Value α))} (hfind : found.get? id = some x) :
    p.cheapWithin host (fuel + 1) id found = (x, found) := by
  simp only [cheapWithin, state_bind, state_get, hfind, state_pure]

theorem cheapWithin_unknown {fuel : Nat} {id : ExprId} {found : Found (Option (Value α))}
    (hfind : found.get? id = none) (hnode : p.get? id = none) :
    p.cheapWithin host (fuel + 1) id found = (none, found) := by
  simp only [cheapWithin, state_bind, state_get, hfind, hnode, state_pure]

theorem cheapWithin_node {fuel : Nat} {id : ExprId} {n : Node α}
    {found : Found (Option (Value α))} (hfind : found.get? id = none)
    (hnode : p.get? id = some n) :
    p.cheapWithin host (fuel + 1) id found =
      p.probeNode host (p.cheapWithin host fuel) id n found := by
  simp only [cheapWithin, state_bind, state_get, hfind, hnode]
  rfl

/-- **The induction over a probe.**  What a probe finds is known, however
deep it looks. -/
theorem cheapWithin_known (fuel : Nat) (id : ExprId) :
    p.Finds host id (p.cheapWithin host fuel id) := by
  induction fuel generalizing id with
  | zero =>
      intro found h
      exact ⟨h, fun hnone => by cases hnone⟩
  | succ fuel ih =>
      intro found h
      have hunknown : p.Justified host (Pool.remember id (none : Option (Value α)) found).2 ∧
          ∀ {v : Value α}, (Pool.remember id (none : Option (Value α)) found).1 = some v →
            p.Known host id v :=
        h.remember fun hnone => by cases hnone
      cases hfind : found.get? id with
      | some x =>
          rw [cheapWithin_found hfind]
          exact ⟨h, fun hx => h (hx ▸ hfind)⟩
      | none =>
          cases hnode : p.get? id with
          | none =>
              rw [cheapWithin_unknown hfind hnode]
              exact ⟨h, fun hx => by cases hx⟩
          | some n =>
              rw [cheapWithin_node hfind hnode]
              unfold probeNode
              cases hform : n.form with
              | constant v =>
                  refine h.remember ?_
                  rintro w ⟨⟩
                  exact .constant hnode hform
              | sensor name device =>
                  refine h.remember ?_
                  intro v hv
                  obtain ⟨hreading, hkind⟩ := Option.filter_eq_some_iff.mp hv
                  exact .sensor hnode hform hreading (by simpa using hkind)
              | relation source target =>
                  exact h.remember fun hvalue => .relation hnode hform hvalue
              | smooth x tau =>
                  by_cases hconstant : p.isConstant x = true
                  · obtain ⟨hx, hknown⟩ := ih x h
                    simp only [hconstant, if_true]
                    exact hx.remember fun hv => .filter hnode (by rw [hform]; rfl) (hknown hv)
                  · simp only [hconstant]
                    exact hunknown
              | rateLimit x rate =>
                  by_cases hconstant : p.isConstant x = true
                  · obtain ⟨hx, hknown⟩ := ih x h
                    simp only [hconstant, if_true]
                    exact hx.remember fun hv => .filter hnode (by rw [hform]; rfl) (hknown hv)
                  · simp only [hconstant]
                    exact hunknown
              | _ =>
                  have hoperator := operator_known (fun d _ => ih d) hnode h
                  rw [hform] at hoperator
                  exact hoperator

/-- **What a probe says is known.** -/
theorem cheapValue?_known {id : ExprId} {v : Value α} (h : p.cheapValue? host id = some v) :
    p.Known host id v := by
  have hempty : p.Justified host .empty := fun hfound => by simp at hfound
  have hfinds : p.Finds host id (p.cheapWithin host (id + 1) id) := cheapWithin_known (id + 1) id
  exact (hfinds hempty).2 h

/-- Everything that can make a node known. -/
theorem Known.inversion {id : ExprId} {n : Node α} {v : Value α} (h : p.Known host id v)
    (hn : p.get? id = some n) :
    n.form = .constant v ∨
      (∃ name device, n.form = .sensor name device ∧ host.reading name = some v ∧
        v.kind = n.kind) ∨
      (∃ source target, n.form = .relation source target ∧
        host.relationValue? source target = some v) ∨
      (∃ x, n.form.filtered? = some x ∧ p.Known host x v) ∨
      (n.form.isPure = true ∧ ∃ args, List.Forall₂ (p.Known host) n.dependencies args ∧
        n.form.eval? args = some v) := by
  cases h with
  | constant hnode hform =>
      rw [hn] at hnode
      cases hnode
      exact Or.inl hform
  | sensor hnode hform hreading hkind =>
      rw [hn] at hnode
      cases hnode
      exact Or.inr (Or.inl ⟨_, _, hform, hreading, hkind⟩)
  | relation hnode hform hvalue =>
      rw [hn] at hnode
      cases hnode
      exact Or.inr (Or.inr (Or.inl ⟨_, _, hform, hvalue⟩))
  | filter hnode hform hinput =>
      rw [hn] at hnode
      cases hnode
      exact Or.inr (Or.inr (Or.inr (Or.inl ⟨_, hform, hinput⟩)))
  | operator hnode hpure hargs hvalue =>
      rw [hn] at hnode
      cases hnode
      exact Or.inr (Or.inr (Or.inr (Or.inr ⟨hpure, _, hargs, hvalue⟩)))

omit [Scalar α] in
theorem dependencies_of_filtered? {form : Form α} {x : ExprId} (h : form.filtered? = some x) :
    form.dependencies = [x] := by
  cases form <;> simp_all [Form.filtered?, Form.dependencies]

/-- The operands of something known are known. -/
theorem Known.operand {id : ExprId} {n : Node α} {v : Value α} (h : p.Known host id v)
    (hn : p.get? id = some n) {d : ExprId} (hd : d ∈ n.dependencies) :
    ∃ w, p.Known host d w := by
  unfold Node.dependencies at hd
  rcases h.inversion hn with hform | ⟨name, device, hform, -⟩ | ⟨source, target, hform, -⟩ |
    ⟨x, hfilter, hx⟩ | ⟨-, args, hargs, -⟩
  · simp [hform, Form.dependencies] at hd
  · simp [hform, Form.dependencies] at hd
  · simp [hform, Form.dependencies] at hd
  · rw [dependencies_of_filtered? hfilter] at hd
    obtain rfl := List.mem_singleton.mp hd
    exact ⟨v, hx⟩
  · obtain ⟨w, -, hw⟩ := forall₂_exists_of_mem hargs hd
    exact ⟨w, hw⟩

/-- With an expression everything that it reaches is known. -/
theorem Known.reaches {id j : ExprId} {v : Value α} (h : p.Known host id v)
    (hj : p.Reaches id j) : ∃ w, p.Known host j w := by
  induction hj with
  | root => exact ⟨v, h⟩
  | operand _ hn hd ih =>
      obtain ⟨w, hw⟩ := ih
      exact hw.operand hn hd

/-- A literal is known to be itself. -/
theorem Known.of_constant {id : ExprId} {n : Node α} {v w : Value α} (h : p.Known host id v)
    (hn : p.get? id = some n) (hform : n.form = .constant w) : v = w := by
  rcases h.inversion hn with hv | ⟨name, device, hv, -⟩ | ⟨source, target, hv, -⟩ |
    ⟨x, hfilter, -⟩ | ⟨hpure, -⟩
  · rw [hform] at hv
    cases hv
    rfl
  · rw [hform] at hv
    cases hv
  · rw [hform] at hv
    cases hv
  · rw [hform] at hfilter
    cases hfilter
  · rw [hform] at hpure
    cases hpure

/-- An operator is known by its operands. -/
theorem Known.of_isPure {id : ExprId} {n : Node α} {v : Value α} (h : p.Known host id v)
    (hn : p.get? id = some n) (hpure : n.form.isPure = true) :
    ∃ args, List.Forall₂ (p.Known host) n.dependencies args ∧ n.form.eval? args = some v := by
  rcases h.inversion hn with hform | ⟨name, device, hform, -⟩ | ⟨source, target, hform, -⟩ |
    ⟨x, hfilter, -⟩ | ⟨-, hoperands⟩
  · rw [hform] at hpure
    cases hpure
  · rw [hform] at hpure
    cases hpure
  · rw [hform] at hpure
    cases hpure
  · cases hform : n.form <;> simp_all [Form.filtered?, Form.isPure, Form.isStateful]
  · exact hoperands

/-- Neither placeholders nor parameters are known. -/
theorem Known.form {id : ExprId} {n : Node α} {v : Value α} (h : p.Known host id v)
    (hn : p.get? id = some n) :
    n.form.isPlaceholder = false ∧ ∀ name, n.form ≠ .parameter name := by
  rcases h.inversion hn with hform | ⟨name, device, hform, -⟩ | ⟨source, target, hform, -⟩ |
    ⟨x, hfilter, -⟩ | ⟨hpure, -⟩
  · simp [hform, Form.isPlaceholder]
  · simp [hform, Form.isPlaceholder]
  · simp [hform, Form.isPlaceholder]
  · cases hform : n.form <;> simp_all [Form.filtered?, Form.isPlaceholder]
  · cases hform : n.form <;>
      simp_all [Form.isPure, Form.isLeaf, Form.dependencies, Form.isPlaceholder]

/-- **What is known and never changes** is the value in every cycle.  Filters
are left out: a filter of something known starts at it, and need not stay. -/
theorem Known.course (hp : p.WellFormed) {σ : Setting α} (hσ : σ.share = id)
    {P : ExprId → Prop} (hclosed : ∀ {i : ExprId} {n : Node α}, P i → p.get? i = some n →
      n.form.filtered? = none ∧ ∀ d ∈ n.dependencies, P d)
    {i : ExprId} {v : Value α} (hi : P i) (h : p.Known host i v) (hconstant : p.isConstant i = true)
    (k : Nat) : p.course σ i k = some v := by
  -- Operands stand before the expressions that use them.
  induction i using Nat.strongRecOn generalizing v with
  | ind i ih =>
      obtain ⟨n, hn, hflag⟩ : ∃ n, p.get? i = some n ∧ n.constant = true := by
        unfold isConstant at hconstant
        cases hn : p.get? i with
        | none => simp [hn] at hconstant
        | some n => exact ⟨n, rfl, by simpa [hn] using hconstant⟩
      obtain ⟨hfilter, hoperands⟩ := hclosed hi hn
      rw [course_eq hp σ hn]
      rcases (hp.constant_iff hn).mp hflag with hfixed | ⟨hcomposite, -, hconstants⟩
      · obtain ⟨w, hform⟩ : ∃ w, n.form = .constant w := by
          have hparameter := (h.form hn).2
          cases hform : n.form <;> simp_all [Form.isFixedLeaf]
        rw [h.of_constant hn hform, hform]
        show some (σ.share w) = some w
        rw [hσ]
        rfl
      · rcases h.inversion hn with hform | ⟨name, device, hform, -⟩ | ⟨source, target, hform, -⟩ |
          ⟨x, hx, -⟩ | ⟨hpure, args, hargs, hvalue⟩
        · simp [hform, Form.isComposite] at hcomposite
        · simp [hform, Form.isComposite] at hcomposite
        · simp [hform, Form.isComposite] at hcomposite
        · simp [hx] at hfilter
        · have hstate : n.form.isStateful = false := Form.isStateful_of_isPure hpure
          have hvalues : List.Forall₂ (fun (operand : Course α) w => operand k = some w)
              (n.dependencies.map (p.course σ)) args := by
            rw [List.forall₂_map_left_iff]
            refine forall₂_imp_of_mem hargs ?_
            intro d hd w hw
            exact ih d (hp.before hn d hd) (hoperands d hd) hw (hconstants d hd)
          rw [Form.course_operator hcomposite hstate, mapM_some_iff_forall₂.mpr hvalues]
          exact hvalue

end Pool

end SignalNet
