import SignalNet.Proofs.Compile.Meaning
import SignalNet.Proofs.Compile.Probe
import SignalNet.Proofs.Net.Readiness
import SignalNet.Proofs.Pool.Constancy

/-!
# The network of a constant expression

A constant expression becomes blocks of constants, and of operators on them.
None of these blocks has a memory or looks at what surrounds the network, so what
a block puts out is fixed once its sources are: a port is *pinned* to a value if
it carries the value after every completed cycle (`Session.Pins`).

Nothing is said of cycles that fail.  An operator may be undefined on what its
sources carry, and then no cycle is ever completed and its port is pinned to
everything; this is why `Session.pins_operator` asks for a value that is the only
possible one, and not for a value that there is.

* `Session.Faithful.pinned` says that every port of a constant expression is
  pinned, by induction over the positions in the pool.
* `Session.Faithful.stays` says to what, if a probe knows.
* `Compiler.constants_stay` is the result, for all calls on a running network.
-/

namespace SignalNet

open Computing

variable {α : Type} [Scalar α]

namespace Session

variable {program : Program α} {P : ExprId → Prop} {s : Session α}

/-- A port carries a value after every completed cycle. -/
def Pins (s : Session α) (q : PortId) (v : Value α) : Prop :=
  ∀ sim sim' : Simulator α, sim.fragment = s.fragment → sim.Cycle sim' →
    sim'.value? q = some v

theorem pins_constant (hf : s.fragment.WellFormed) {q : PortId} {v : Value α} {kind : Kind}
    (hq : s.fragment.Makes q (.constant v) [] kind) : s.Pins q v := by
  intro sim sim' hsim hcycle
  rw [← hsim] at hf hq
  exact hcycle.constant hf hq

/-- The block of an operator on pinned ports, if `v` is all that the operator
can make of their values. -/
theorem pins_operator (hf : s.fragment.WellFormed) {n : Node α} {parameters : Parameters α}
    {primitive : Primitive α} (hpure : n.form.isPure = true)
    (hprimitive : n.form.primitive? parameters = some primitive) {q : PortId}
    {sources : List PortId} {args : List (Value α)} {kind : Kind}
    (hq : s.fragment.Makes q primitive sources kind) (hargs : List.Forall₂ s.Pins sources args)
    {v : Value α} (hv : ∀ w, n.form.eval? args = some w → w = v) : s.Pins q v := by
  have hcomposite : n.form.isComposite = true := Form.isComposite_of_isPure hpure
  have hstate : n.form.isStateful = false := Form.isStateful_of_isPure hpure
  have hdelay : primitive.isDelay = false := by
    cases hdelay : primitive.isDelay with
    | false => rfl
    | true =>
        obtain ⟨x, initial, hform⟩ := Form.eq_pre_of_isDelay hprimitive hdelay
        rw [hform] at hstate
        cases hstate
  intro sim sim' hsim hcycle
  rw [← hsim] at hf hq
  obtain ⟨args', w, m, memory, hargs', hreact, hvalue⟩ := hcycle.makes hf hq hdelay
  have hpinned : List.Forall₂ (fun source a => sim'.value? source = some a) sources args :=
    forall₂_imp_of_mem hargs fun source _ a ha => ha sim sim' hsim hcycle
  have hsame : args' = args := by
    have heq := (mapM_some_iff_forall₂.mpr hargs').symm.trans (mapM_some_iff_forall₂.mpr hpinned)
    exact Option.some.inj heq
  rw [Form.react_eq hcomposite hstate hprimitive, hsame] at hreact
  rw [hvalue, hv w (operator_eq_ok.mp hreact).1]

/-- Calls of any kind may come before a cycle; a pinned port carries its value
after it. -/
theorem Pins.step {q : PortId} {v : Value α} (h : s.Pins q v) (hf : s.fragment.WellFormed)
    {period : α} {s₀ sim : Simulator α} (hstart : Simulator.start s.fragment period = .ok s₀)
    {calls : List (Simulator.Call α)}
    (hstep : Simulator.step (Simulator.performAll calls s₀) = .ok () sim) :
    sim.value? q = some v := by
  obtain ⟨hfragment, hcycle⟩ := Simulator.performAll_cycle hf hstart hstep
  exact h _ sim hfragment hcycle

/-- The port of a constant. -/
theorem Grounded.pinned (h : Grounded program P s) {c : Value α} {q : PortId}
    (hq : s.constants.get? c = some q) : ∃ v, s.Pins q v := by
  obtain ⟨v, -, -, hmakes⟩ := h.constants hq
  exact ⟨v, pins_constant h.wellFormed hmakes⟩

section Frozen

variable (hp : program.pool.WellFormed) (hP : program.pool.Frozen P)

include hp hP

/-- The blocks of constant expressions are the blocks of operators. -/
theorem isPure_of_primitive? {id : ExprId} {n : Node α} {primitive : Primitive α} (hid : P id)
    (hn : program.pool.get? id = some n)
    (hprimitive : n.form.primitive? program.parameters = some primitive) :
    n.form.isPure = true := by
  rcases hP.cases hp hid hn with ⟨v, hfixed⟩ | ⟨name, hfixed⟩ | hpure
  · rw [hfixed] at hprimitive
    cases hprimitive
  · rw [hfixed] at hprimitive
    cases hprimitive
  · exact hpure

theorem form_ne_relation {id : ExprId} {n : Node α} (hid : P id)
    (hn : program.pool.get? id = some n) (source target : String) :
    n.form ≠ .relation source target := by
  intro hform
  rcases hP.cases hp hid hn with ⟨v, hfixed⟩ | ⟨name, hfixed⟩ | hpure
  · rw [hform] at hfixed
    cases hfixed
  · rw [hform] at hfixed
    cases hfixed
  · rw [hform] at hpure
    cases hpure

/-- **Constant expressions stay.**  The port of each of them is pinned to a
value. -/
theorem Faithful.pinned (h : Faithful program P s) {id : ExprId} {q : PortId}
    (hq : s.lowered.get? id = some q) : ∃ v, s.Pins q v := by
  -- Operands stand before the expressions that use them.
  induction id using Nat.strongRecOn generalizing q with
  | ind id ih =>
      obtain ⟨hid, n, hn, hrepresents⟩ := h.entries hq
      cases hrepresents with
      | constant _ hport => exact h.toGrounded.pinned hport
      | parameter _ _ hport => exact h.toGrounded.pinned hport
      | relation hform _ _ => exact absurd hform (form_ne_relation hp hP hid hn _ _)
      | block hform hproduces hsources =>
          have hpure := isPure_of_primitive? hp hP hid hn hform
          obtain ⟨args, hargs⟩ := exists_forall₂_of_forall (R := s.Pins) fun source hsource => by
            obtain ⟨d, hd, hentry⟩ := forall₂_exists_of_mem hsources.flip hsource
            exact ih d (hp.before hn d hd) hentry
          refine ⟨(n.form.eval? args).getD (.boolean false), ?_⟩
          refine pins_operator h.wellFormed hpure hform ⟨_, _, hproduces⟩ hargs ?_
          intro w hw
          rw [hw, Option.getD_some]

/-- If the values of the expressions are known, the ports are pinned to these. -/
theorem Faithful.pinned_known (h : Faithful program P s) {host : Host α}
    (hknown : ∀ {id : ExprId}, P id → ∃ v, program.pool.Known host id v) {id : ExprId}
    {q : PortId} {v : Value α} (hq : s.lowered.get? id = some q)
    (hv : program.pool.Known host id v) : s.Pins q v := by
  induction id using Nat.strongRecOn generalizing q v with
  | ind id ih =>
      obtain ⟨hid, n, hn, hrepresents⟩ := h.entries hq
      cases hrepresents with
      | constant hform hport =>
          obtain ⟨u, hblock, hsame⟩ := h.toGrounded.literal hp hknown
            (fun hid hn => form_ne_relation hp hP hid hn) hport
          rw [hv.of_constant hn hform, hsame hn hform rfl]
          exact pins_constant h.wellFormed hblock
      | parameter hform _ _ => exact absurd hform ((hv.form hn).2 _)
      | relation hform _ _ => exact absurd hform (form_ne_relation hp hP hid hn _ _)
      | block hform hproduces hsources =>
          have hpure := isPure_of_primitive? hp hP hid hn hform
          obtain ⟨args, hargs, hvalue⟩ := hv.of_isPure hn hpure
          have hoperands : List.Forall₂ (fun d a => ∀ source, s.lowered.get? d = some source →
              s.Pins source a) n.dependencies args :=
            forall₂_imp_of_mem hargs fun d hd a ha source hsource =>
              ih d (hp.before hn d hd) hsource ha
          have hpinned : List.Forall₂ s.Pins _ args :=
            forall₂_imp_of_mem (forall₂_meet hsources hoperands)
              fun source _ a ⟨d, hsource, ha⟩ => ha source hsource
          refine pins_operator h.wellFormed hpure hform ⟨_, _, hproduces⟩ hpinned ?_
          intro w hw
          exact Option.some.inj (hw.symm.trans hvalue)

end Frozen

/-- What the port of an expression is pinned to is what a probe finds. -/
theorem Faithful.stays (hp : program.pool.WellFormed) {id : ExprId}
    (hP : program.pool.Frozen (program.pool.Reaches id))
    (h : Faithful program (program.pool.Reaches id) s) {q : PortId}
    (hq : s.lowered.get? id = some q) (host : Host α) :
    ∃ v, s.Pins q v ∧ ∀ w, program.pool.cheapValue? host id = some w → v = w := by
  cases hcheap : program.pool.cheapValue? host id with
  | none =>
      obtain ⟨v, hpins⟩ := h.pinned hp hP hq
      exact ⟨v, hpins, fun w hw => by cases hw⟩
  | some v =>
      have hknown := Pool.cheapValue?_known hcheap
      refine ⟨v, h.pinned_known hp hP (fun hj => hknown.reaches hj) hq hknown, ?_⟩
      rintro w ⟨⟩
      rfl

end Session

/-- **The flag of constants is sound.**  Let an expression of a reachable pool
be flagged constant, and let it reach neither filters nor forms of the user.
Then its known value is the same on every host.  Let a compiler lower what the
expression reaches the way the library does; its other rules may be anything.
Then the root of the network carries one value after every completed cycle,
whatever calls have been made before, cycles that failed included, and this is
the known value if there is one. -/
theorem Compiler.constants_stay {pool : Pool α} (hpool : pool.Reachable) {id : ExprId}
    (hconstant : pool.isConstant id = true)
    (hordinary : ∀ j n, pool.Reaches id j → pool.get? j = some n → n.form.isOrdinary = true) :
    (∀ host host' : Host α, pool.cheapValue? host id = pool.cheapValue? host' id) ∧
    ∀ (c : Compiler α) (host : Host α) (parameters : Parameters α) (net : CompiledNet α),
      Program.Standard ⟨pool, c.rules, parameters, c.settings, host⟩ (pool.Reaches id) →
      c.compile pool host { target := .expr id, parameters } = .ok net →
      ∃ root v, net.root = some root ∧
        (∀ (host' : Host α) (w : Value α), pool.cheapValue? host' id = some w → v = w) ∧
        ∀ (period : α) (s₀ : Simulator α) (calls : List (Simulator.Call α)) (s : Simulator α),
          Simulator.start net.fragment period = .ok s₀ →
          Simulator.step (Simulator.performAll calls s₀) = .ok () s → s.value? root = some v := by
  have hp := hpool.wellFormed
  have hfrozen : pool.Frozen (pool.Reaches id) := Pool.frozen_reaches hp hconstant hordinary
  have hhosts : ∀ host host' : Host α, pool.cheapValue? host id = pool.cheapValue? host' id :=
    fun host host' => hfrozen.cheapValue? hp host host' .root
  refine ⟨hhosts, ?_⟩
  intro c host parameters net hrules hnet
  obtain ⟨s', hsession⟩ := Compiler.compile_eq_ok hnet
  obtain ⟨session, root, hfaithful, hfragment, hentry, hroot, -⟩ :=
    Session.compile_expr_represents hp hrules
      ⟨hfrozen.closed, fun hj hn => hfrozen.plain hp hj hn⟩ hsession
  obtain ⟨v, hpins, hcheap⟩ := hfaithful.stays hp hfrozen hentry host
  refine ⟨root, v, hroot, ?_, ?_⟩
  · intro host' w hw
    exact hcheap w ((hhosts host host').trans hw)
  · intro period s₀ calls s hstart hstep
    rw [← hfragment] at hstart
    exact hpins.step hfaithful.wellFormed hstart hstep

/-- What the root of a compiled network carries after some calls and one more
cycle. -/
def Compiler.rootAfterCalls? (c : Compiler α) (pool : Pool α) (request : Request α) (period : α)
    (calls : List (Simulator.Call α)) : Option (Value α) :=
  match c.compile pool .offline request with
  | .error _ => none
  | .ok net =>
    match Simulator.start net.fragment period with
    | .error _ => none
    | .ok s₀ =>
      match Simulator.step (Simulator.performAll calls s₀) with
      | .error _ _ => none
      | .ok _ s => net.root.bind s.value?

theorem Compiler.rootAfterCalls?_eq_some {c : Compiler α} {pool : Pool α} {request : Request α}
    {period : α} {calls : List (Simulator.Call α)} {v : Value α}
    (h : c.rootAfterCalls? pool request period calls = some v) :
    ∃ net s₀ s, c.compile pool .offline request = .ok net ∧
      Simulator.start net.fragment period = .ok s₀ ∧
      Simulator.step (Simulator.performAll calls s₀) = .ok () s ∧
      net.root.bind s.value? = some v := by
  unfold rootAfterCalls? at h
  split at h
  · cases h
  · next net hnet =>
      split at h
      · cases h
      · next s₀ hstart =>
          split at h
          · cases h
          · next u s hstep => exact ⟨net, s₀, s, hnet, hstart, hstep, h⟩

/-- A sum of literals that is not folded. -/
def Sample.five : Pool Float :=
  Pool.performAll [.constant (.double 2), .constant (.double 3), .binary .add 0 1]
    { folding := false }

/-- Everything that can be set from outside is set, before and after a cycle. -/
def Sample.pokes : List (Simulator.Call Float) :=
  [.setInput "x" (.double 1), .step, .setSensor "t" (.double 4), .setSlot 0 (.double 7)]

theorem Compiler.five_stays :
    (∀ host : Host Float, Sample.five.cheapValue? host 2 = some (.double 5)) ∧
      ∃ net root s₀ s, Compiler.compile ⟨.standard, .standard⟩ Sample.five .offline
          { target := .expr 2 } = .ok net ∧ net.root = some root ∧
        Simulator.start net.fragment 1 = .ok s₀ ∧
        Simulator.step (Simulator.performAll Sample.pokes s₀) = .ok () s ∧
        s.value? root = some (.double 5) := by
  have hordinary : (Sample.five.nodes.all fun n => n.form.isOrdinary) = true := by
    decide +kernel
  have hcheap : Sample.five.cheapValue? .offline 2 = some (.double 5) := by decide +kernel
  have hroot : (Compiler.rootAfterCalls? ⟨.standard, .standard⟩ Sample.five { target := .expr 2 } 1
      Sample.pokes).isSome = true := by decide +kernel
  obtain ⟨v, hv⟩ := Option.isSome_iff_exists.mp hroot
  obtain ⟨net, s₀, s, hnet, hstart, hstep, -⟩ := Compiler.rootAfterCalls?_eq_some hv
  have hpool : Sample.five.Reachable := ⟨false, _, rfl⟩
  have hconstant : Sample.five.isConstant 2 = true := by decide +kernel
  obtain ⟨hhosts, hnets⟩ := Compiler.constants_stay hpool hconstant
    fun j n _ hn => Pool.all_nodes hordinary hn
  obtain ⟨root, w, hroot', hknown, hruns⟩ :=
    hnets ⟨.standard, .standard⟩ .offline {} net (.of_rules rfl) hnet
  refine ⟨fun host => (hhosts host .offline).trans hcheap, net, root, s₀, s, hnet, hroot', hstart,
    hstep, ?_⟩
  rw [← hknown .offline _ hcheap]
  exact hruns 1 s₀ Sample.pokes s hstart hstep

/-- A literal. -/
def Sample.truth : Pool Float :=
  Pool.performAll [.constant (.boolean true)] { folding := false }

/-- The rules of the library have to apply: another rule may lower a literal to
an input. -/
theorem Compiler.stays_fails_for_other_rules :
    ¬ ∀ (pool : Pool Float) (id : ExprId), pool.Reachable → pool.isConstant id = true →
      (∀ j n, pool.Reaches id j → pool.get? j = some n → n.form.isOrdinary = true) →
      (∀ host host', pool.cheapValue? host id = pool.cheapValue? host' id) ∧
      ∀ (c : Compiler Float) (host : Host Float) (parameters : Parameters Float)
        (net : CompiledNet Float),
        c.compile pool host { target := .expr id, parameters } = .ok net →
        ∃ root v, net.root = some root ∧
          (∀ host' w, pool.cheapValue? host' id = some w → v = w) ∧
          ∀ (period : Float) (s₀ : Simulator Float) (calls : List (Simulator.Call Float))
            (s : Simulator Float),
            Simulator.start net.fragment period = .ok s₀ →
            Simulator.step (Simulator.performAll calls s₀) = .ok () s →
            s.value? root = some v := by
  intro hclaim
  have hordinary : (Sample.truth.nodes.all fun n => n.form.isOrdinary) = true := by
    decide +kernel
  have hcheap : Sample.truth.cheapValue? .offline 0 = some (.boolean true) := by decide +kernel
  have hroot : Compiler.rootAfterCalls?
      ⟨Rules.standard.insert "constant" (.block (.input "x") none), .standard⟩ Sample.truth
      { target := .expr 0 } 1 [.setInput "x" (.boolean false)] = some (.boolean false) := by
    decide +kernel
  obtain ⟨net, s₀, s, hnet, hstart, hstep, hvalue⟩ := Compiler.rootAfterCalls?_eq_some hroot
  obtain ⟨-, hnets⟩ := hclaim Sample.truth 0 ⟨false, _, rfl⟩ (by decide +kernel)
    fun j n _ hn => Pool.all_nodes hordinary hn
  obtain ⟨root, v, hroot', hknown, hruns⟩ := hnets _ .offline {} net hnet
  rw [hroot', Option.bind_some, hruns 1 s₀ _ s hstart hstep, hknown .offline _ hcheap] at hvalue
  cases hvalue

end SignalNet
