import SignalNet.Proofs.Pool.Known

/-!
# Constant expressions

The flag of a node is set when the node is built, from the flags of its
operands alone.  What it promises can only be said of everything that the node
reaches: below a constant expression there are literals, parameters and
operators (`Pool.Frozen.cases`), as long as filters and the forms of the user are
left out.  A filter of constants is flagged, and still needs time to settle.

None of what is left asks the host, so a probe goes the same way on every host
(`Pool.Frozen.cheapWithin`).
-/

namespace SignalNet

variable {α : Type}

/-- Neither a filter nor a form of the user. -/
def Form.isOrdinary : Form α → Bool
  | .smooth _ _ | .rateLimit _ _ | .custom _ => false
  | _ => true

namespace Pool

open Computing

variable [Scalar α] {p : Pool α} {P : ExprId → Prop}

/-- Constant expressions without filters and forms of the user, together with
their operands. -/
structure Frozen (p : Pool α) (P : ExprId → Prop) : Prop where
  constant : ∀ {id : ExprId} {n : Node α}, P id → p.get? id = some n → n.constant = true
  ordinary : ∀ {id : ExprId} {n : Node α}, P id → p.get? id = some n →
    n.form.isOrdinary = true
  closed : ∀ {id : ExprId} {n : Node α}, P id → p.get? id = some n → ∀ d ∈ n.dependencies, P d

/-- A node that is frozen is a literal, a parameter or an operator. -/
theorem Frozen.cases (hp : p.WellFormed) (h : p.Frozen P) {id : ExprId} {n : Node α} (hid : P id)
    (hn : p.get? id = some n) :
    (∃ v, n.form = .constant v) ∨ (∃ name, n.form = .parameter name) ∨ n.form.isPure = true := by
  have hordinary := h.ordinary hid hn
  rcases (hp.constant_iff hn).mp (h.constant hid hn) with hfixed | ⟨hcomposite, hforward, -⟩
  · cases hform : n.form <;> simp_all [Form.isFixedLeaf]
  · have hleaf : n.form.isLeaf = false := by
      have hoperands := dependencies_ne_nil ((hp.admitted hn).typed hcomposite) hcomposite
      simpa [Form.isLeaf] using hoperands
    cases hform : n.form <;>
      simp_all [Form.isOrdinary, Form.isComposite, Form.looksBack, Form.isPure, Form.isStateful]

theorem Frozen.plain (hp : p.WellFormed) (h : p.Frozen P) {id : ExprId} {n : Node α} (hid : P id)
    (hn : p.get? id = some n) : n.form.isPlaceholder = false := by
  rcases h.cases hp hid hn with ⟨v, hform⟩ | ⟨name, hform⟩ | hpure
  · rw [hform]
    rfl
  · rw [hform]
    rfl
  · cases hform : n.form <;>
      simp_all [Form.isPure, Form.isLeaf, Form.dependencies, Form.isPlaceholder]

/-- Everything that a constant expression reaches is constant. -/
theorem isConstant_of_reaches (hp : p.WellFormed) {id j : ExprId} (h : p.isConstant id = true)
    (hj : p.Reaches id j) : p.isConstant j = true := by
  induction hj with
  | root => exact h
  | @operand i d n _ hn hd ih =>
      have hflag : n.constant = true := by simpa [isConstant, hn] using ih
      rcases (hp.constant_iff hn).mp hflag with hfixed | ⟨-, -, hoperands⟩
      · unfold Node.dependencies at hd
        cases hform : n.form <;> simp_all [Form.isFixedLeaf, Form.dependencies]
      · exact hoperands d hd

theorem frozen_reaches (hp : p.WellFormed) {id : ExprId} (hconstant : p.isConstant id = true)
    (hordinary : ∀ j n, p.Reaches id j → p.get? j = some n → n.form.isOrdinary = true) :
    p.Frozen (p.Reaches id) where
  constant := by
    intro j n hj hn
    have hflag := isConstant_of_reaches hp hconstant hj
    simpa [isConstant, hn] using hflag
  ordinary hj hn := hordinary _ _ hj hn
  closed hj hn d hd := .operand hj hn hd

/-! ### Probes of constant expressions -/

omit [Scalar α] in
theorem cheapAll_congr {one one' : ExprId → StateM (Found (Option (Value α))) (Option (Value α))}
    {ids : List ExprId} (h : ∀ id ∈ ids, one id = one' id) : cheapAll one ids = cheapAll one' ids := by
  induction ids with
  | nil => rfl
  | cons id rest ih =>
      unfold cheapAll
      rw [h id List.mem_cons_self, ih fun d hd => h d (List.mem_cons_of_mem id hd)]

/-- A probe of an operator looks at the operands only. -/
theorem probeNode_of_isPure {host : Host α}
    {one : ExprId → StateM (Found (Option (Value α))) (Option (Value α))} {id : ExprId} {n : Node α}
    (hpure : n.form.isPure = true) :
    p.probeNode host one id n = (do
      match ← cheapAll one n.dependencies with
      | none => pure none
      | some args => remember id (n.form.eval? args)) := by
  unfold probeNode Node.dependencies
  cases hform : n.form <;> rw [hform] at hpure <;> exact if_pos hpure

/-- A probe takes the same way on every host. -/
theorem Frozen.cheapWithin (hp : p.WellFormed) (h : p.Frozen P) (host host' : Host α)
    (fuel : Nat) {id : ExprId} (hid : P id) :
    p.cheapWithin host fuel id = p.cheapWithin host' fuel id := by
  induction fuel generalizing id with
  | zero => rfl
  | succ fuel ih =>
      funext found
      cases hfind : found.get? id with
      | some x => rw [cheapWithin_found hfind, cheapWithin_found hfind]
      | none =>
          cases hn : p.get? id with
          | none => rw [cheapWithin_unknown hfind hn, cheapWithin_unknown hfind hn]
          | some n =>
              rw [cheapWithin_node hfind hn, cheapWithin_node hfind hn]
              rcases h.cases hp hid hn with ⟨v, hform⟩ | ⟨name, hform⟩ | hpure
              · simp only [probeNode, hform]
              · simp only [probeNode, hform]
                rfl
              · rw [probeNode_of_isPure hpure, probeNode_of_isPure hpure,
                  cheapAll_congr fun d hd => ih (h.closed hid hn d hd)]

/-- **What is known of a constant expression does not depend on the host.** -/
theorem Frozen.cheapValue? (hp : p.WellFormed) (h : p.Frozen P) (host host' : Host α)
    {id : ExprId} (hid : P id) : p.cheapValue? host id = p.cheapValue? host' id := by
  unfold Pool.cheapValue?
  rw [h.cheapWithin hp host host' (id + 1) hid]

end Pool

end SignalNet
