import SignalNet.Proofs.Folding.Script
import SignalNet.Proofs.Pool.Known

/-!
# Folding and what is known before a network runs

Folding does not make a probe find less.  `Pool.Known` is a reading of a pool
of integers and booleans in which delays, edges and inputs have no value at
all, so folding refines it.

A probe finds everything that is known, as long as there are no filters in
the pool: filters are probed only if their input is constant.  The invariant
is that no entry of the table of findings misses a value that is known
(`Pool.Complete`).
-/

namespace SignalNet.Pool

open Computing

variable {α : Type} [Scalar α] {p : Pool α} {host : Host α}

/-! ### Knowledge as a reading -/

/-- What a host knows before a network runs: the last readings of sensors. -/
def Reading.known (host : Host α) : Reading α Unit where
  leaf form kind := fun _ v =>
    match form with
    | .sensor name _ => host.reading name = some v ∧ v.kind = kind
    | _ => False
  delay _ _ := fun _ _ => False
  edge _ _ := fun _ _ => False
  delay_mono _ _ _ hv := hv
  edge_mono _ _ _ hv := hv

/-- What can make an integer or a boolean known. -/
theorem Known.discrete {id : ExprId} {n : Node α} {v : Value α} (h : p.Known host id v)
    (hd : p.Discrete) (hn : p.get? id = some n) :
    n.form = .constant v ∨
      (∃ name device, n.form = .sensor name device ∧ host.reading name = some v ∧
        v.kind = n.kind) ∨
      (n.form.isPure = true ∧ ∃ args, List.Forall₂ (p.Known host) n.dependencies args ∧
        n.form.eval? args = some v) := by
  have hdiscrete := hd.form hn
  rcases h.inversion hn with hconstant | hsensor | ⟨source, target, hform, -⟩ |
    ⟨x, hfilter, -⟩ | hpure
  · exact Or.inl hconstant
  · exact Or.inr (Or.inl hsensor)
  · rw [hform] at hdiscrete
    cases hdiscrete
  · cases hform : n.form <;> simp_all [Form.filtered?, Form.isDiscrete]
  · exact Or.inr (Or.inr hpure)

/-- On integers and booleans knowledge is a reading. -/
theorem known_traces (hd : p.Discrete) :
    p.Traces (Reading.known host) fun id _ v => p.Known host id v := by
  constructor
  intro id n hn i v
  constructor
  · intro hv
    rcases hv.discrete hd hn with hform | ⟨name, device, hform, hreading⟩ | ⟨hpure, hvalue⟩
    · rw [hform]
      exact rfl
    · rw [hform]
      exact hreading
    · exact (Form.trace_pure hpure).mpr hvalue
  · intro hv
    by_cases hpure : n.form.isPure = true
    · obtain ⟨args, hargs, hvalue⟩ := (Form.trace_pure hpure).mp hv
      exact .operator hn hpure hargs hvalue
    · have hdiscrete := hd.form hn
      cases hform : n.form with
      | constant c =>
          rw [hform] at hv
          cases hv
          exact .constant hn hform
      | sensor name device =>
          rw [hform] at hv
          exact .sensor hn hform hv.1 hv.2
      | input name =>
          rw [hform] at hv
          cases hv
      | pre x initial =>
          rw [hform] at hv
          cases hv
      | edge x rising =>
          rw [hform] at hv
          cases hv
      | _ => simp_all [Form.isPure, Form.isLeaf, Form.isStateful, Form.dependencies,
          Form.isDiscrete]

/-! ### Probes find what is known -/

/-- No entry of a table of findings misses a known value. -/
def Complete (p : Pool α) (host : Host α) (found : Found (Option (Value α))) : Prop :=
  ∀ {id : ExprId} {x : Option (Value α)} {v : Value α}, found.get? id = some x →
    p.Known host id v → x = some v

/-- A probe that finds what is known: its table is complete if it was. -/
def FindsAll (p : Pool α) (host : Host α) (id : ExprId)
    (probe : StateM (Found (Option (Value α))) (Option (Value α))) : Prop :=
  ∀ {found : Found (Option (Value α))}, p.Complete host found → p.Complete host (probe found).2 ∧
    ∀ {v : Value α}, p.Known host id v → (probe found).1 = some v

theorem Complete.remember {found : Found (Option (Value α))} (h : p.Complete host found)
    {id : ExprId} {x : Option (Value α)} (hx : ∀ {v : Value α}, p.Known host id v → x = some v) :
    p.Complete host (Pool.remember id x found).2 ∧
      ∀ {v : Value α}, p.Known host id v → (Pool.remember id x found).1 = some v := by
  refine ⟨?_, hx⟩
  intro j y w hj hw
  by_cases hji : j = id
  · subst hji
    have hself : some x = some y := (Table.get?_insert_self _ _ _).symm.trans hj
    rw [← Option.some.inj hself]
    exact hx hw
  · exact h ((Table.get?_insert_of_ne _ _ hji).symm.trans hj) hw

/-- Operands that are all known are all found. -/
theorem cheapAll_complete {one : ExprId → StateM (Found (Option (Value α))) (Option (Value α))}
    {ids : List ExprId} (hone : ∀ id ∈ ids, p.FindsAll host id (one id))
    {found : Found (Option (Value α))} (h : p.Complete host found) :
    p.Complete host (cheapAll one ids found).2 ∧
      ∀ {args : List (Value α)}, List.Forall₂ (p.Known host) ids args →
        (cheapAll one ids found).1 = some args := by
  induction ids generalizing found with
  | nil =>
      refine ⟨h, ?_⟩
      intro args hargs
      cases hargs
      rfl
  | cons id rest ih =>
      obtain ⟨hcomplete, hfinds⟩ := hone id (by simp) h
      cases hfirst : one id found with
      | mk x after =>
          rw [hfirst] at hcomplete hfinds
          cases x with
          | none =>
              rw [cheapAll_stop hfirst]
              refine ⟨hcomplete, ?_⟩
              rintro args (_ | ⟨hv, _⟩)
              cases hfinds hv
          | some v =>
              obtain ⟨hrest, hargs⟩ := ih (fun j hj => hone j (by simp [hj])) hcomplete
              rw [cheapAll_next hfirst]
              refine ⟨hrest, ?_⟩
              rintro args (_ | ⟨hw, hmore⟩)
              rw [hargs hmore, ← Option.some.inj (hfinds hw)]
              rfl

/-- Probing an operator, or something without a value. -/
theorem operator_complete
    {one : ExprId → StateM (Found (Option (Value α))) (Option (Value α))} {id : ExprId}
    {n : Node α} (hone : ∀ d ∈ n.dependencies, p.FindsAll host d (one d))
    (hknown : ∀ {v : Value α}, p.Known host id v → n.form.isPure = true ∧
      ∃ args, List.Forall₂ (p.Known host) n.dependencies args ∧ n.form.eval? args = some v) :
    p.FindsAll host id
      (if n.form.isPure then do
        match ← cheapAll one n.form.dependencies with
        | none => pure none
        | some args => remember id (n.form.eval? args)
      else remember id none) := by
  intro found h
  by_cases hpure : n.form.isPure = true
  · obtain ⟨hcomplete, hall⟩ := cheapAll_complete hone h
    have hargs : cheapAll one n.form.dependencies found =
        ((cheapAll one n.dependencies found).1, (cheapAll one n.dependencies found).2) := rfl
    simp only [hpure, if_true, state_bind, hargs]
    cases hfound : (cheapAll one n.dependencies found).1 with
    | none =>
        refine ⟨hcomplete, ?_⟩
        intro v hv
        obtain ⟨-, args, hknown, -⟩ := hknown hv
        rw [hall hknown] at hfound
        cases hfound
    | some args =>
        refine hcomplete.remember ?_
        intro v hv
        obtain ⟨-, args', hknown, hvalue⟩ := hknown hv
        rw [hall hknown] at hfound
        cases hfound
        exact hvalue
  · simp only [hpure]
    exact h.remember fun hv => absurd (hknown hv).1 hpure

/-- Probing a node, given how its operands are probed. -/
theorem probeNode_complete
    {one : ExprId → StateM (Found (Option (Value α))) (Option (Value α))} {id : ExprId}
    {n : Node α} (hone : ∀ d ∈ n.dependencies, p.FindsAll host d (one d)) (hd : p.Discrete)
    (hnode : p.get? id = some n) : p.FindsAll host id (p.probeNode host one id n) := by
  intro found h
  have hdiscrete := hd.form hnode
  unfold probeNode
  cases hform : n.form with
  | constant c =>
      refine h.remember ?_
      intro v hv
      rw [hv.of_constant hnode hform]
  | sensor name device =>
      refine h.remember ?_
      intro v hv
      rcases hv.discrete hd hnode with hother | ⟨_, _, hsame, hreading, hkind⟩ | ⟨hother, -⟩
      · rw [hform] at hother
        cases hother
      · rw [hform] at hsame
        cases hsame
        exact Option.filter_eq_some_iff.mpr ⟨hreading, by simpa using hkind⟩
      · rw [hform] at hother
        cases hother
  | relation source target =>
      rw [hform] at hdiscrete
      cases hdiscrete
  | smooth x tau =>
      rw [hform] at hdiscrete
      cases hdiscrete
  | rateLimit x rate =>
      rw [hform] at hdiscrete
      cases hdiscrete
  | _ =>
      have hknown : ∀ {v : Value α}, p.Known host id v → n.form.isPure = true ∧
          ∃ args, List.Forall₂ (p.Known host) n.dependencies args ∧
            n.form.eval? args = some v := by
        intro v hv
        rcases hv.discrete hd hnode with hother | ⟨_, _, hother, -⟩ | hpure
        · rw [hform] at hother
          cases hother
        · rw [hform] at hother
          cases hother
        · exact hpure
      have hoperator := operator_complete hone hknown h
      rw [hform] at hoperator
      exact hoperator

/-- **The induction over a probe.**  A probe that can look deep enough finds
what is known. -/
theorem cheapWithin_complete (hp : p.WellFormed) (hd : p.Discrete) {fuel : Nat} {id : ExprId}
    (hfuel : id < fuel) : p.FindsAll host id (p.cheapWithin host fuel id) := by
  induction fuel generalizing id with
  | zero => exact absurd hfuel (Nat.not_lt_zero id)
  | succ fuel ih =>
      intro found h
      cases hfind : found.get? id with
      | some x =>
          rw [cheapWithin_found hfind]
          exact ⟨h, fun hv => h hfind hv⟩
      | none =>
          cases hnode : p.get? id with
          | none =>
              rw [cheapWithin_unknown hfind hnode]
              refine ⟨h, ?_⟩
              intro v hv
              cases hv <;> simp_all
          | some n =>
              rw [cheapWithin_node hfind hnode]
              refine probeNode_complete (fun d hdep => ih ?_) hd hnode h
              exact Nat.lt_of_lt_of_le (hp.before hnode d hdep) (Nat.le_of_lt_succ hfuel)

/-- **A probe finds what is known.** -/
theorem cheapValue?_of_known (hp : p.WellFormed) (hd : p.Discrete) {id : ExprId} {v : Value α}
    (h : p.Known host id v) : p.cheapValue? host id = some v := by
  have hempty : p.Complete host .empty := fun hfound => by simp at hfound
  have hfinds : p.FindsAll host id (p.cheapWithin host (id + 1) id) :=
    cheapWithin_complete hp hd (Nat.lt_succ_self id)
  exact (hfinds hempty).2 h

/-! ### Folding -/

/-- What is known of a result of a script stays known with folding. -/
theorem runScript_known (hlaws : Scalar.SignLaws α) {script : List (Call α)}
    (hscript : ∀ c ∈ script, c.isDiscrete = true) {ids ids' : List ExprId} {p q : Pool α}
    (h : runScript script [] { folding := true } = .ok ids p)
    (h' : runScript script [] { folding := false } = .ok ids' q) (host : Host α) :
    List.Forall₂ (fun id' id => ∀ v, q.Known host id' v → p.Known host id v) ids' ids := by
  obtain ⟨hp, -, -⟩ := runScript_tidy hscript (sane_empty true) h
  obtain ⟨hq, -, -⟩ := runScript_tidy hscript (sane_empty false) h'
  -- Edges have no values in this reading, so none of them can be missed.
  have hcalm : CalmScript (Reading.known host) script ids p := by
    intro x rising id _ _ c _ i v hv
    cases hv
  have hpairs := runScript_refines hlaws hscript h h' (known_traces hp.discrete)
    (known_traces hq.discrete) hcalm
  exact hpairs.imp fun id' id hpair v hv => hpair () v hv

/-- **Folding keeps known values.**  Make the same calls on integers and
booleans with folding and without it: result by result, a probe of the
folding pool finds every value that a probe of the plain pool finds. -/
theorem runScript_cheapValue? {script : List (Call Float)}
    (hscript : ∀ c ∈ script, c.isDiscrete = true) {ids ids' : List ExprId} {p q : Pool Float}
    (h : runScript script [] { folding := true } = .ok ids p)
    (h' : runScript script [] { folding := false } = .ok ids' q) (host : Host Float) :
    List.Forall₂ (fun id' id => ∀ v, q.cheapValue? host id' = some v →
      p.cheapValue? host id = some v) ids' ids := by
  obtain ⟨hp, -, -⟩ := runScript_tidy hscript (sane_empty true) h
  refine (runScript_known Double.signLaws hscript h h' host).imp ?_
  intro id' id hknown v hv
  exact cheapValue?_of_known hp.wellFormed hp.discrete (hknown v (cheapValue?_known hv))

/-- Calls that folding answers with a single sum: the literals move to the
right and are merged, and the selection disappears. -/
def Sample.shifted : List (Call Float) :=
  [.sensor "n" .integer, .constant (.integer 2), .binary .add 1 0, .constant (.integer 3),
    .binary .add 2 3, .constant (.boolean true), .select 5 4 0]

/-- A host that has read the sensor. -/
def Sample.counted : Host Float :=
  .ofTables (DeviceTable.record {} "n" (.integer 4)) {}

theorem shifted_cheapValue? :
    ∃ ids ids' p q, runScript Sample.shifted [] { folding := true } = .ok ids p ∧
      runScript Sample.shifted [] { folding := false } = .ok ids' q ∧
      ∃ id ∈ ids, p.cheapValue? Sample.counted id = some (.integer 9) := by
  have hok : (match runScript Sample.shifted [] { folding := true } with
      | .ok _ _ => true
      | .error _ _ => false) = true := by decide +kernel
  have hok' : (match runScript Sample.shifted [] { folding := false } with
      | .ok ids q => ids.contains 6 && q.cheapValue? Sample.counted 6 == some (.integer 9)
      | .error _ _ => false) = true := by decide +kernel
  cases h : runScript Sample.shifted [] { folding := true } with
  | error e p =>
      rw [h] at hok
      cases hok
  | ok ids p =>
      cases h' : runScript Sample.shifted [] { folding := false } with
      | error e q =>
          rw [h'] at hok'
          cases hok'
      | ok ids' q =>
          rw [h'] at hok'
          obtain ⟨hmem, hvalue⟩ := Bool.and_eq_true_iff.mp hok'
          have hpairs := runScript_cheapValue? (by decide) h h' Sample.counted
          obtain ⟨id, hid, hknown⟩ := forall₂_exists_of_mem hpairs (List.contains_iff_mem.mp hmem)
          exact ⟨ids, ids', p, q, rfl, rfl, id, hid, hknown _ (by simpa using hvalue)⟩

end SignalNet.Pool
