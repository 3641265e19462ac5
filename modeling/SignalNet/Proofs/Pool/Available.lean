import SignalNet.Expr.Probe
import SignalNet.Proofs.Pool.Construction

/-!
# What a host can compute

A host *offers* a node if the device of the sensor is present, or the frames of
the relation are connected through devices that are; other forms need nothing
from it (`Form.isOffered`).  An expression is available if the host offers
everything that it reaches (`Pool.Available`).

A probe walks down the operands, stops at the first that is missing, and keeps a
table of verdicts.  `Pool.availableWithin_settles` is the induction: whatever
the table holds is the truth, however the probe got there.
`Pool.isAvailable_iff` is the result.
-/

namespace SignalNet

variable {α : Type}

/-- The host has what a node itself needs, its operands apart. -/
def Form.isOffered (host : Host α) : Form α → Bool
  | .sensor _ (some device) => host.isPresent device
  | .relation source target => host.relationAvailable source target
  | _ => true

namespace Pool

open Computing

/-- The host offers an expression and all that it reaches. -/
inductive Available (p : Pool α) (host : Host α) : ExprId → Prop
  | mk {id : ExprId} {n : Node α} (hnode : p.get? id = some n)
      (hoffered : n.form.isOffered host = true)
      (hoperands : ∀ d ∈ n.dependencies, Available p host d) : Available p host id

variable {p : Pool α} {host : Host α}

theorem available_iff {id : ExprId} {n : Node α} (hnode : p.get? id = some n) :
    p.Available host id ↔
      n.form.isOffered host = true ∧ ∀ d ∈ n.dependencies, p.Available host d := by
  constructor
  · rintro ⟨hn, hoffered, hoperands⟩
    cases hnode.symm.trans hn
    exact ⟨hoffered, hoperands⟩
  · rintro ⟨hoffered, hoperands⟩
    exact ⟨hnode, hoffered, hoperands⟩

theorem not_available_of_unknown {id : ExprId} (hnode : p.get? id = none) :
    ¬ p.Available host id := by
  rintro ⟨hn, -, -⟩
  cases hnode.symm.trans hn

/-- All verdicts in a table are true. -/
def Truthful (p : Pool α) (host : Host α) (found : Found Bool) : Prop :=
  ∀ {id : ExprId} {b : Bool}, found.get? id = some b → (b = true ↔ p.Available host id)

/-- A probe that decides a question by a truthful table, which stays truthful. -/
def Settles (p : Pool α) (host : Host α) (question : Prop)
    (probe : StateM (Found Bool) Bool) : Prop :=
  ∀ found : Found Bool, p.Truthful host found →
    p.Truthful host (probe found).2 ∧ ((probe found).1 = true ↔ question)

/-- Entering a true verdict. -/
theorem settles_remember {id : ExprId} {b : Bool} (hb : b = true ↔ p.Available host id) :
    p.Settles host (p.Available host id) (Pool.remember id b) := by
  intro found h
  refine ⟨?_, hb⟩
  intro j c hj
  rcases Table.get?_insert_cases hj with ⟨rfl, rfl⟩ | hold
  · exact hb
  · exact h hold

/-- Probing operands from left to right.  A missing operand settles the
question, so the rest is not probed. -/
theorem availableAll_settles {one : ExprId → StateM (Found Bool) Bool} {ids : List ExprId}
    (hone : ∀ id ∈ ids, p.Settles host (p.Available host id) (one id)) :
    p.Settles host (∀ d ∈ ids, p.Available host d) (availableAll one ids) := by
  induction ids with
  | nil =>
      intro found h
      exact ⟨h, by simp [availableAll, state_pure]⟩
  | cons id rest ih =>
      intro found h
      obtain ⟨hfirst, hverdict⟩ := hone id List.mem_cons_self found h
      rw [List.forall_mem_cons, availableAll, state_bind]
      cases hb : (one id found).1 with
      | false =>
          have hmissing : ¬ p.Available host id := by
            rw [← hverdict, hb]
            exact Bool.false_ne_true
          exact ⟨hfirst, by simp [state_pure, hmissing]⟩
      | true =>
          obtain ⟨hrest, hall⟩ := ih (fun d hd => hone d (List.mem_cons_of_mem id hd)) _ hfirst
          have hhere : p.Available host id := hverdict.mp hb
          exact ⟨hrest, by simpa [hhere] using hall⟩

/-- What a probe does at a node that it has not met before; `one` probes the
operands. -/
def availableNode (host : Host α) (one : ExprId → StateM (Found Bool) Bool) (id : ExprId)
    (n : Node α) : StateM (Found Bool) Bool :=
  match n.form with
  | .sensor _ (some device) => remember id (host.isPresent device)
  | .relation source target => remember id (host.relationAvailable source target)
  | form => do remember id (← availableAll one form.dependencies)

/-- What the table holds is not looked for again. -/
theorem availableWithin_found {fuel : Nat} {id : ExprId} {b : Bool} {found : Found Bool}
    (hfind : found.get? id = some b) :
    p.availableWithin host (fuel + 1) id found = (b, found) := by
  simp only [availableWithin, state_bind, state_get, hfind, state_pure]

theorem availableWithin_unknown {fuel : Nat} {id : ExprId} {found : Found Bool}
    (hfind : found.get? id = none) (hnode : p.get? id = none) :
    p.availableWithin host (fuel + 1) id found = (false, found) := by
  simp only [availableWithin, state_bind, state_get, hfind, hnode, state_pure]

theorem availableWithin_node {fuel : Nat} {id : ExprId} {n : Node α} {found : Found Bool}
    (hfind : found.get? id = none) (hnode : p.get? id = some n) :
    p.availableWithin host (fuel + 1) id found =
      availableNode host (p.availableWithin host fuel) id n found := by
  simp only [availableWithin, state_bind, state_get, hfind, hnode]
  rfl

theorem availableNode_settles {one : ExprId → StateM (Found Bool) Bool} {id : ExprId}
    {n : Node α} (hnode : p.get? id = some n)
    (hone : ∀ d ∈ n.dependencies, p.Settles host (p.Available host d) (one d)) :
    p.Settles host (p.Available host id) (availableNode host one id n) := by
  have hiff : p.Available host id ↔ _ := available_iff hnode
  -- forms that need nothing from the host are as good as their operands
  have hoperands : n.form.isOffered host = true → p.Settles host (p.Available host id)
      (do remember id (← availableAll one n.form.dependencies)) := by
    intro hoffered found h
    obtain ⟨htruthful, hall⟩ := availableAll_settles hone found h
    have hrest : p.Available host id ↔ ∀ d ∈ n.dependencies, p.Available host d :=
      hiff.trans (and_iff_right hoffered)
    exact settles_remember (hall.trans hrest.symm) _ htruthful
  unfold Node.dependencies at hiff
  unfold availableNode
  cases hform : n.form with
  | sensor name device =>
      rw [hform] at hiff hoperands
      cases device with
      | none => exact hoperands rfl
      | some device => exact settles_remember (by simp [hiff, Form.isOffered, Form.dependencies])
  | relation source target =>
      rw [hform] at hiff
      exact settles_remember (by simp [hiff, Form.isOffered, Form.dependencies])
  | _ =>
      rw [hform] at hoperands
      exact hoperands rfl

variable [Scalar α]

/-- **The induction over a probe.**  What it finds is the truth if it may look
deep enough. -/
theorem availableWithin_settles (hp : p.WellFormed) {fuel : Nat} {id : ExprId}
    (hfuel : id < fuel) :
    p.Settles host (p.Available host id) (p.availableWithin host fuel id) := by
  induction fuel generalizing id with
  | zero => exact absurd hfuel (Nat.not_lt_zero id)
  | succ fuel ih =>
      intro found h
      cases hfind : found.get? id with
      | some b =>
          rw [availableWithin_found hfind]
          exact ⟨h, h hfind⟩
      | none =>
          cases hnode : p.get? id with
          | none =>
              rw [availableWithin_unknown hfind hnode]
              exact ⟨h, by simpa using not_available_of_unknown hnode⟩
          | some n =>
              rw [availableWithin_node hfind hnode]
              refine availableNode_settles hnode (fun d hd => ih ?_) found h
              exact Nat.lt_of_lt_of_le (hp.before hnode d hd) (Nat.le_of_lt_succ hfuel)

/-- **A probe finds out what is available.** -/
theorem isAvailable_iff (hp : p.WellFormed) {id : ExprId} :
    p.isAvailable host id = true ↔ p.Available host id := by
  have hempty : p.Truthful host .empty := fun hfound => by simp at hfound
  exact (availableWithin_settles hp (Nat.lt_succ_self id) _ hempty).2

end Pool

end SignalNet
