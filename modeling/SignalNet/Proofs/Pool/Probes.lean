import Mathlib.Logic.Function.Iterate
import SignalNet.Proofs.Pool.Available
import SignalNet.Proofs.Pool.Constancy
import SignalNet.Scalar.Double

/-!
# Probes as recursions

A recursion is given by its *body*, which says what is done at one place and
leaves the calls open.  It ends at a place if finitely many unrollings of the
body settle the result, whatever stands in for the calls that are left
(`Ends`).  A body that only asks for smaller numbers ends everywhere
(`Descends.ends`).

Each of the two probes is written down twice in this way: with a table of what
has been found (`Pool.cheapBody`, `Pool.availableBody`), and without
(`Pool.valueBody`, `Pool.verdictBody`).  Operands stand before the nodes that use
them, so all four recursions end.  That the table makes no difference rests on
an invariant: it may lack entries, for probes break off early, but the ones it
has are results of the plain recursion (`Pool.Exact`).
-/

namespace SignalNet

namespace Computing

/-! ### Recursions -/

/-- The recursion `f i = body f i` ends at `i` with the result `b`: unrolled far
enough, it gives `b` whatever the calls that are left would give. -/
def Ends {ι β : Type} (body : (ι → β) → ι → β) (i : ι) (b : β) : Prop :=
  ∃ depth, ∀ rest, body^[depth] rest i = b

/-- Where a recursion ends, all functions that satisfy its equation have its
result. -/
theorem Ends.eq_of_solution {ι β : Type} {body : (ι → β) → ι → β} {i : ι} {b : β}
    (h : Ends body i b) {f : ι → β} (hf : ∀ i, f i = body f i) : b = f i := by
  obtain ⟨depth, hdepth⟩ := h
  have hfixed : body f = f := (funext hf).symm
  rw [← hdepth f, Function.iterate_fixed hfixed]

/-- At a number a body only asks for smaller ones. -/
def Descends {β : Type} (body : (Nat → β) → Nat → β) : Prop :=
  ∀ (i : Nat) (f g : Nat → β), (∀ j < i, f j = g j) → body f i = body g i

section Descends

variable {β : Type} {body : (Nat → β) → Nat → β}

/-- Unrolled beyond a number, the recursion has settled there. -/
theorem Descends.iterate_eq (h : Descends body) {i k k' : Nat} (hk : i < k) (hk' : i < k')
    (rest rest' : Nat → β) : body^[k] rest i = body^[k'] rest' i := by
  induction k generalizing i k' with
  | zero => exact absurd hk (Nat.not_lt_zero i)
  | succ k ih =>
      cases k' with
      | zero => exact absurd hk' (Nat.not_lt_zero i)
      | succ k' =>
          rw [Function.iterate_succ_apply', Function.iterate_succ_apply']
          apply h i
          intro j hj
          exact ih (Nat.lt_of_lt_of_le hj (Nat.le_of_lt_succ hk))
            (Nat.lt_of_lt_of_le hj (Nat.le_of_lt_succ hk'))

/-- A recursion that descends ends everywhere. -/
theorem Descends.ends (h : Descends body) (rest : Nat → β) (i : Nat) :
    Ends body i (body^[i + 1] rest i) :=
  ⟨i + 1, fun rest' => h.iterate_eq (Nat.lt_succ_self i) (Nat.lt_succ_self i) rest' rest⟩

/-- A run whose depth is bounded comes to the end of the recursion if the bound
is beyond the number. -/
theorem Descends.ends_of_run (h : Descends body) {run : Nat → Nat → β}
    (hrun : ∀ depth, run (depth + 1) = body (run depth)) (i : Nat) :
    Ends body i (run (i + 1) i) := by
  have hunrolled : ∀ depth, run depth = body^[depth] (run 0) := by
    intro depth
    induction depth with
    | zero => rfl
    | succ depth ih => rw [hrun, Function.iterate_succ_apply', ← ih]
  rw [hunrolled]
  exact h.ends (run 0) i

/-- Its equation has a solution. -/
theorem Descends.exists_solution (h : Descends body) (rest : Nat → β) :
    ∃ f : Nat → β, ∀ i, f i = body f i := by
  refine ⟨fun i => body^[i + 1] rest i, ?_⟩
  intro i
  show body^[i + 1] rest i = _
  rw [Function.iterate_succ_apply']
  exact h i _ _ fun j hj => h.iterate_eq hj (Nat.lt_succ_self j) rest rest

/-- A solution is what the recursion ends with. -/
theorem Descends.ends_iff (h : Descends body) {f : Nat → β} (hf : ∀ i, f i = body f i) {i : Nat}
    {b : β} : Ends body i b ↔ b = f i := by
  constructor
  · intro hends
    exact hends.eq_of_solution hf
  · rintro rfl
    have hends := h.ends f i
    rwa [hends.eq_of_solution hf] at hends

end Descends

end Computing

namespace Pool

open Computing

variable {α : Type} {p : Pool α} {host : Host α}

/-! ### Tables -/

section Tables

variable {β : Type}

/-- Look an expression up in the table, and ask its node if it is not there. -/
def lookUp (p : Pool α) (unknown : β) (ask : ExprId → Node α → StateM (Found β) β) (id : ExprId) :
    StateM (Found β) β := do
  match (← get).get? id, p.get? id with
  | some b, _ => pure b
  | none, none => pure unknown
  | none, some n => ask id n

section LookUp

variable {unknown : β} {ask : ExprId → Node α → StateM (Found β) β} {id : ExprId} {found : Found β}

theorem lookUp_found {b : β} (hfind : found.get? id = some b) :
    p.lookUp unknown ask id found = (b, found) := by
  simp only [lookUp, state_bind, state_get, hfind, state_pure]

theorem lookUp_unknown (hfind : found.get? id = none) (hn : p.get? id = none) :
    p.lookUp unknown ask id found = (unknown, found) := by
  simp only [lookUp, state_bind, state_get, hfind, hn, state_pure]

theorem lookUp_node {n : Node α} (hfind : found.get? id = none) (hn : p.get? id = some n) :
    p.lookUp unknown ask id found = ask id n found := by
  simp only [lookUp, state_bind, state_get, hfind, hn]

/-- Only the node of the expression is asked. -/
theorem lookUp_congr {ask' : ExprId → Node α → StateM (Found β) β}
    (h : ∀ n, p.get? id = some n → ask id n = ask' id n) :
    p.lookUp unknown ask id = p.lookUp unknown ask' id := by
  funext found
  cases hfind : found.get? id with
  | some b => rw [lookUp_found hfind, lookUp_found hfind]
  | none =>
      cases hn : p.get? id with
      | none => rw [lookUp_unknown hfind hn, lookUp_unknown hfind hn]
      | some n => rw [lookUp_node hfind hn, lookUp_node hfind hn, h n hn]

end LookUp

/-- What is in the table is true; not everything need be there. -/
def Exact (answer : ExprId → β) (found : Found β) : Prop :=
  ∀ {id : ExprId} {b : β}, found.get? id = some b → b = answer id

/-- A probe that gives the true answer by an exact table, which stays exact. -/
def Replies (answer : ExprId → β) (id : ExprId) (probe : StateM (Found β) β) : Prop :=
  ∀ found : Found β, Exact answer found →
    Exact answer (probe found).2 ∧ (probe found).1 = answer id

variable {answer : ExprId → β}

theorem replies_remember {id : ExprId} {b : β} (h : b = answer id) :
    Replies answer id (remember id b) := by
  intro found hfound
  refine ⟨?_, h⟩
  intro j c hj
  rcases Table.get?_insert_cases hj with ⟨rfl, rfl⟩ | hold
  · exact h
  · exact hfound hold

theorem replies_lookUp {unknown : β} {ask : ExprId → Node α → StateM (Found β) β} {id : ExprId}
    (hunknown : p.get? id = none → unknown = answer id)
    (hask : ∀ n, p.get? id = some n → Replies answer id (ask id n)) :
    Replies answer id (p.lookUp unknown ask id) := by
  intro found hfound
  cases hfind : found.get? id with
  | some b =>
      rw [lookUp_found hfind]
      exact ⟨hfound, hfound hfind⟩
  | none =>
      cases hn : p.get? id with
      | none =>
          rw [lookUp_unknown hfind hn]
          exact ⟨hfound, hunknown hn⟩
      | some n =>
          rw [lookUp_node hfind hn]
          exact hask n hn found hfound

end Tables

/-! ### Availability -/

/-- Probing operands asks for them only. -/
theorem availableAll_congr {one one' : ExprId → StateM (Found Bool) Bool} {ids : List ExprId}
    (h : ∀ id ∈ ids, one id = one' id) : availableAll one ids = availableAll one' ids := by
  induction ids with
  | nil => rfl
  | cons id rest ih =>
      unfold availableAll
      rw [h id List.mem_cons_self, ih fun d hd => h d (List.mem_cons_of_mem id hd)]

theorem availableNode_congr {one one' : ExprId → StateM (Found Bool) Bool} {id : ExprId}
    {n : Node α} (h : ∀ d ∈ n.dependencies, one d = one' d) :
    availableNode host one id n = availableNode host one' id n := by
  have hall : availableAll one n.form.dependencies = availableAll one' n.form.dependencies :=
    availableAll_congr h
  unfold availableNode
  split
  · rfl
  · rfl
  · rw [hall]

/-- What the probe for availability does at an expression. -/
def availableBody (p : Pool α) (host : Host α) (one : ExprId → StateM (Found Bool) Bool) :
    ExprId → StateM (Found Bool) Bool :=
  p.lookUp false (availableNode host one)

theorem availableWithin_succ (fuel : Nat) :
    p.availableWithin host (fuel + 1) = p.availableBody host (p.availableWithin host fuel) := by
  funext id found
  unfold availableBody
  cases hfind : found.get? id with
  | some b => rw [lookUp_found hfind, availableWithin_found hfind]
  | none =>
      cases hn : p.get? id with
      | none => rw [lookUp_unknown hfind hn, availableWithin_unknown hfind hn]
      | some n => rw [lookUp_node hfind hn, availableWithin_node hfind hn]

/-- Whether a node is available, from the verdicts on its operands. -/
def verdictNode (host : Host α) (verdict : ExprId → Bool) (n : Node α) : Bool :=
  match n.form with
  | .sensor _ (some device) => host.isPresent device
  | .relation source target => host.relationAvailable source target
  | form => form.dependencies.all verdict

/-- What the probe for availability would do without a table.  An unknown
expression is not available. -/
def verdictBody (p : Pool α) (host : Host α) (verdict : ExprId → Bool) (id : ExprId) : Bool :=
  (p.get? id).any (verdictNode host verdict)

theorem verdictNode_eq (verdict : ExprId → Bool) (n : Node α) :
    verdictNode host verdict n = (n.form.isOffered host && n.dependencies.all verdict) := by
  unfold verdictNode Node.dependencies
  cases n.form with
  | sensor name device => cases device <;> simp [Form.isOffered, Form.dependencies]
  | _ => simp [Form.isOffered, Form.dependencies]

variable [Scalar α]

theorem availableBody_descends (hp : p.WellFormed) : Descends (p.availableBody host) := by
  intro id one one' h
  refine lookUp_congr fun n hn => availableNode_congr fun d hd => ?_
  exact h d (hp.before hn d hd)

theorem verdictBody_descends (hp : p.WellFormed) : Descends (p.verdictBody host) := by
  intro id verdict verdict' h
  unfold verdictBody
  cases hn : p.get? id with
  | none => rfl
  | some n =>
      have hall : n.dependencies.all verdict = n.dependencies.all verdict' := by
        rw [Bool.eq_iff_iff, List.all_eq_true, List.all_eq_true]
        exact forall₂_congr fun d hd => by rw [h d (hp.before hn d hd)]
      simp only [Option.any_some, verdictNode_eq, hall]

/-- The probe for availability satisfies the equation of the plain
recursion. -/
theorem isAvailable_eq (hp : p.WellFormed) (id : ExprId) :
    p.isAvailable host id = p.verdictBody host (p.isAvailable host) id := by
  -- The answers of the probe are known, so no second induction is needed.
  rw [Bool.eq_iff_iff, isAvailable_iff hp, verdictBody]
  cases hn : p.get? id with
  | none => simpa using not_available_of_unknown hn
  | some n =>
      simp only [Option.any_some, verdictNode_eq, Bool.and_eq_true, List.all_eq_true,
        isAvailable_iff hp]
      exact available_iff hn

/-! ### Known values -/

/-- What the probe for values does at an expression. -/
def cheapBody (p : Pool α) (host : Host α)
    (one : ExprId → StateM (Found (Option (Value α))) (Option (Value α))) :
    ExprId → StateM (Found (Option (Value α))) (Option (Value α)) :=
  p.lookUp none (p.probeNode host one)

theorem cheapWithin_succ (fuel : Nat) :
    p.cheapWithin host (fuel + 1) = p.cheapBody host (p.cheapWithin host fuel) := by
  funext id found
  unfold cheapBody
  cases hfind : found.get? id with
  | some v => rw [lookUp_found hfind, cheapWithin_found hfind]
  | none =>
      cases hn : p.get? id with
      | none => rw [lookUp_unknown hfind hn, cheapWithin_unknown hfind hn]
      | some n => rw [lookUp_node hfind hn, cheapWithin_node hfind hn]

/-- The value of a node, from the values of its operands. -/
def valueNode (p : Pool α) (host : Host α) (value : ExprId → Option (Value α)) (n : Node α) :
    Option (Value α) :=
  match n.form with
  | .constant v => some v
  | .sensor name _ => (host.reading name).filter fun v => decide (v.kind = n.kind)
  | .relation source target => host.relationValue? source target
  | .smooth x _ | .rateLimit x _ => if p.isConstant x then value x else none
  | form => if form.isPure then (form.dependencies.mapM value).bind form.eval? else none

/-- What the probe for values would do without a table.  An unknown expression
has no value. -/
def valueBody (p : Pool α) (host : Host α) (value : ExprId → Option (Value α)) (id : ExprId) :
    Option (Value α) :=
  (p.get? id).bind (p.valueNode host value)

theorem probeNode_congr {one one' : ExprId → StateM (Found (Option (Value α))) (Option (Value α))}
    {id : ExprId} {n : Node α} (h : ∀ d ∈ n.dependencies, one d = one' d) :
    p.probeNode host one id n = p.probeNode host one' id n := by
  unfold Node.dependencies at h
  unfold probeNode
  cases hform : n.form with
  | constant | sensor | relation => rfl
  | smooth x _ | rateLimit x _ =>
      rw [hform] at h
      simp only [h x List.mem_cons_self]
  | _ =>
      rw [hform] at h
      simp only [cheapAll_congr h]

theorem valueNode_congr {value value' : ExprId → Option (Value α)} {n : Node α}
    (h : ∀ d ∈ n.dependencies, value d = value' d) :
    p.valueNode host value n = p.valueNode host value' n := by
  unfold Node.dependencies at h
  unfold valueNode
  cases hform : n.form with
  | constant | sensor | relation => rfl
  | smooth x _ | rateLimit x _ =>
      rw [hform] at h
      simp only [h x List.mem_cons_self]
  | _ =>
      rw [hform] at h
      simp only [mapM_congr h]

theorem cheapBody_descends (hp : p.WellFormed) : Descends (p.cheapBody host) := by
  intro id one one' h
  refine lookUp_congr fun n hn => probeNode_congr fun d hd => ?_
  exact h d (hp.before hn d hd)

theorem valueBody_descends (hp : p.WellFormed) : Descends (p.valueBody host) := by
  intro id value value' h
  unfold valueBody
  cases hn : p.get? id with
  | none => rfl
  | some n => exact valueNode_congr fun d hd => h d (hp.before hn d hd)

/-! ### The table makes no difference -/

variable {value : ExprId → Option (Value α)}

omit [Scalar α] in
/-- Probing operands gives their values, or stops at the first that has
none. -/
theorem cheapAll_replies {one : ExprId → StateM (Found (Option (Value α))) (Option (Value α))}
    {ids : List ExprId} (hone : ∀ d ∈ ids, Replies value d (one d))
    {found : Found (Option (Value α))} (hfound : Exact value found) :
    Exact value (cheapAll one ids found).2 ∧ (cheapAll one ids found).1 = ids.mapM value := by
  induction ids generalizing found with
  | nil => exact ⟨hfound, rfl⟩
  | cons id rest ih =>
      obtain ⟨hexact, hvalue⟩ := hone id List.mem_cons_self found hfound
      rw [List.mapM_cons, ← hvalue]
      cases hfirst : one id found with
      | mk x after =>
          rw [hfirst] at hexact
          cases x with
          | none =>
              -- The rest is not probed, and the table lacks what it would have found.
              rw [cheapAll_stop hfirst]
              exact ⟨hexact, rfl⟩
          | some v =>
              obtain ⟨hrest, hvalues⟩ := ih (fun d hd => hone d (List.mem_cons_of_mem id hd)) hexact
              rw [cheapAll_next hfirst, hvalues]
              exact ⟨hrest, by cases rest.mapM value <;> rfl⟩

/-- An operator is remembered unless it lacks an operand. -/
theorem operator_replies {one : ExprId → StateM (Found (Option (Value α))) (Option (Value α))}
    {id : ExprId} {form : Form α} (hone : ∀ d ∈ form.dependencies, Replies value d (one d))
    (hvalue : (if form.isPure then (form.dependencies.mapM value).bind form.eval? else none) =
      value id) :
    Replies value id
      (if form.isPure then do
        match ← cheapAll one form.dependencies with
        | none => pure none
        | some args => remember id (form.eval? args)
      else remember id none) := by
  intro found hfound
  by_cases hpure : form.isPure = true
  · obtain ⟨hexact, hargs⟩ := cheapAll_replies hone hfound
    simp only [hpure, if_true, ← hargs] at hvalue
    simp only [hpure, if_true, state_bind]
    cases hall : (cheapAll one form.dependencies found).1 with
    | none =>
        rw [hall] at hvalue
        exact ⟨hexact, hvalue⟩
    | some args =>
        rw [hall] at hvalue
        exact replies_remember hvalue _ hexact
  · simp only [hpure] at hvalue ⊢
    exact replies_remember hvalue found hfound

/-- **One step of a probe** gives what the plain recursion gives, if it does so
for the operands. -/
theorem probeNode_replies {one : ExprId → StateM (Found (Option (Value α))) (Option (Value α))}
    {id : ExprId} {n : Node α} (hone : ∀ d ∈ n.dependencies, Replies value d (one d))
    (hvalue : p.valueNode host value n = value id) :
    Replies value id (p.probeNode host one id n) := by
  unfold Node.dependencies at hone
  unfold valueNode at hvalue
  unfold probeNode
  cases hform : n.form with
  | constant | sensor | relation =>
      rw [hform] at hvalue
      exact replies_remember hvalue
  | smooth x _ | rateLimit x _ =>
      rw [hform] at hone hvalue
      intro found hfound
      by_cases hconstant : p.isConstant x = true
      · obtain ⟨hexact, hx⟩ := hone x List.mem_cons_self found hfound
        simp only [hconstant, if_true] at hvalue ⊢
        exact replies_remember (hx.trans hvalue) _ hexact
      · simp only [hconstant] at hvalue ⊢
        exact replies_remember hvalue found hfound
  | _ =>
      rw [hform] at hone hvalue
      exact operator_replies hone hvalue

/-- **The induction over a probe.**  By any table with true entries, a probe
that may look deep enough finds what the plain recursion finds. -/
theorem cheapWithin_replies (hp : p.WellFormed) (hvalue : ∀ id, value id = p.valueBody host value id)
    {fuel : Nat} {id : ExprId} (hfuel : id < fuel) :
    Replies value id (p.cheapWithin host fuel id) := by
  induction fuel generalizing id with
  | zero => exact absurd hfuel (Nat.not_lt_zero id)
  | succ fuel ih =>
      have hbody := hvalue id
      rw [cheapWithin_succ]
      refine replies_lookUp (fun hn => ?_) (fun n hn => probeNode_replies (fun d hd => ih ?_) ?_)
      · rw [hbody, valueBody, hn]
        rfl
      · exact Nat.lt_of_lt_of_le (hp.before hn d hd) (Nat.le_of_lt_succ hfuel)
      · rw [hbody, valueBody, hn]
        rfl

/-- The probe for values satisfies the equation of the plain recursion. -/
theorem cheapValue?_eq (hp : p.WellFormed) (id : ExprId) :
    p.cheapValue? host id = p.valueBody host (p.cheapValue? host) id := by
  have hdescends : Descends (p.valueBody host) := valueBody_descends hp
  obtain ⟨value, hvalue⟩ := hdescends.exists_solution fun _ => none
  have hempty : Exact value .empty := fun hfound => by simp at hfound
  have hsame : p.cheapValue? host = value := by
    funext id
    exact (cheapWithin_replies hp hvalue (Nat.lt_succ_self id) _ hempty).2
  rw [hsame]
  exact hvalue id

/-- **Probes are plain recursions.**  On every host, and for every expression of
a pool to which calls lead, known or not: the recursion with a table ends, and
starting with an empty table it gives the answer of the probe.  The recursion
without a table ends, and with this very answer.  Both are true of values and
of availability. -/
theorem probes_are_recursions (hp : p.Reachable) (host : Host α) (id : ExprId) :
    (∃ probe, Ends (p.cheapBody host) id probe ∧
      (probe .empty).1 = p.cheapValue? host id) ∧
    (∀ v, Ends (p.valueBody host) id v ↔ v = p.cheapValue? host id) ∧
    (∃ probe, Ends (p.availableBody host) id probe ∧
      (probe .empty).1 = p.isAvailable host id) ∧
    ∀ b, Ends (p.verdictBody host) id b ↔ b = p.isAvailable host id := by
  have hwell := hp.wellFormed
  refine ⟨⟨p.cheapWithin host (id + 1) id, ?_, rfl⟩, ?_,
    ⟨p.availableWithin host (id + 1) id, ?_, rfl⟩, ?_⟩
  · exact (cheapBody_descends hwell).ends_of_run cheapWithin_succ id
  · intro v
    exact (valueBody_descends hwell).ends_iff (cheapValue?_eq hwell)
  · exact (availableBody_descends hwell).ends_of_run availableWithin_succ id
  · intro b
    exact (verdictBody_descends hwell).ends_iff (isAvailable_eq hwell)

/-- A host with the reading of one sensor, and a device that is not there. -/
def Sample.bench : Host Float :=
  .ofTables (((DeviceTable.record {} "t" (.double 3)).addDevice "arm" none).setPresent "arm" false)
    {}

/-- A pool with shared operands: the double of a square, and sums of it with an
input and with a sensor of the device. -/
def Sample.ladder : Pool Float :=
  performAll [.sensor "t" .double, .binary .mul 0 0, .binary .add 1 1, .input "u" .double .global,
    .binary .add 3 2, .deviceSensor Sample.bench "arm" "q" .double, .binary .add 2 5]
    { folding := false }

theorem ladder_probes :
    (∃ probe, Ends (Sample.ladder.cheapBody Sample.bench) 2 probe ∧
      (probe .empty).1 = some (.double 18)) ∧
    Ends (Sample.ladder.valueBody Sample.bench) 2 (some (.double 18)) ∧
    Ends (Sample.ladder.valueBody Sample.bench) 4 none ∧
    Ends (Sample.ladder.verdictBody Sample.bench) 4 true ∧
    (∃ probe, Ends (Sample.ladder.availableBody Sample.bench) 6 probe ∧
      (probe .empty).1 = false) ∧
    Ends (Sample.ladder.verdictBody Sample.bench) 6 false := by
  have hreachable : Sample.ladder.Reachable := ⟨false, _, rfl⟩
  have hdouble : Sample.ladder.cheapValue? Sample.bench 2 = some (.double 18) := by decide +kernel
  have hinput : Sample.ladder.cheapValue? Sample.bench 4 = none := by decide +kernel
  have hpresent : Sample.ladder.isAvailable Sample.bench 4 = true := by decide +kernel
  have hmissing : Sample.ladder.isAvailable Sample.bench 6 = false := by decide +kernel
  obtain ⟨hprobe, hplain, -⟩ := probes_are_recursions hreachable Sample.bench 2
  obtain ⟨-, hunknown, -, hverdict⟩ := probes_are_recursions hreachable Sample.bench 4
  obtain ⟨-, -, hprobe', hverdict'⟩ := probes_are_recursions hreachable Sample.bench 6
  rw [hdouble] at hprobe
  rw [hmissing] at hprobe'
  exact ⟨hprobe, (hplain _).mpr hdouble.symm, (hunknown _).mpr hinput.symm,
    (hverdict _).mpr hpresent.symm, hprobe', (hverdict' _).mpr hmissing.symm⟩

end Pool

end SignalNet
