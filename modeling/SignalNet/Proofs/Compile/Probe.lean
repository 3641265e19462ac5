import SignalNet.Proofs.Compile.Accepts
import SignalNet.Proofs.Compile.Representation
import SignalNet.Proofs.Net.Forecast
import SignalNet.Proofs.Pool.Known
import SignalNet.Scalar.Double

/-!
# Probes agree with networks

A value that a probe finds is the value that the network computes in its first
cycle.  Two things have to be shown: that no block of the network fails, and
that the root gets the value.  Both follow from one fact about a single block,
that the primitive of a known expression reacts to the known values of the
operands with the known value of the expression (`Pool.Known.react`).

That no block fails needs that every block of the network stands for a known
expression, which is one more invariant of lowering (`Session.Covered`).
-/

namespace SignalNet

open Computing

variable {α : Type} [Scalar α]

namespace Pool

variable {p : Pool α} {host : Host α}

/-! ### Known expressions -/

theorem relationValue?_kind {source target : String} {v : Value α}
    (h : host.relationValue? source target = some v) : v.kind = .transform := by
  simp only [Host.relationValue?, Option.bind_eq_bind, Option.bind_eq_some_iff] at h
  obtain ⟨path, -, pose, -, hpose⟩ := h
  cases hpose
  rfl

/-- A known value has the kind of its expression. -/
theorem Known.kind (hp : p.WellFormed) {id : ExprId} {n : Node α} {v : Value α}
    (h : p.Known host id v) (hn : p.get? id = some n) : v.kind = n.kind := by
  induction id using Nat.strongRecOn generalizing n v with
  | ind id ih =>
      have hadmitted := hp.admitted hn
      have hoperand : ∀ {d : ExprId} {w : Value α}, d ∈ n.dependencies → p.Known host d w →
          p.kindOf d = .ok w.kind := by
        intro d w hd hw
        obtain ⟨m, hm⟩ := get?_of_lt_size (hadmitted.before d hd)
        exact kindOf_eq_ok.mpr ⟨m, hm, (ih d (hp.before hn d hd) hw hm).symm⟩
      rcases h.inversion hn with hform | ⟨name, device, -, -, hkind⟩ | ⟨source, target, hform, hv⟩ |
        ⟨x, hfilter, hx⟩ | ⟨hpure, args, hargs, hv⟩
      · have hleaf := hadmitted.leaf (by rw [hform]; rfl)
        simp only [Node.OfLeaf, hform] at hleaf
        exact hleaf.1.symm
      · exact hkind
      · have hleaf := hadmitted.leaf (by rw [hform]; rfl)
        simp only [Node.OfLeaf, hform] at hleaf
        rw [relationValue?_kind hv, hleaf.1]
      · have hdeps : n.dependencies = [x] := dependencies_of_filtered? hfilter
        have hkind := hoperand (by simp [hdeps]) hx
        cases hform : n.form with
        | smooth y tau =>
            have hgives := infer_gives (hadmitted.typed (by rw [hform]; rfl))
            rw [hform] at hgives hfilter
            cases hfilter
            rw [hgives.1] at hkind
            rw [← Except.ok.inj hkind, hgives.2]
        | rateLimit y rate =>
            have hgives := infer_gives (hadmitted.typed (by rw [hform]; rfl))
            rw [hform] at hgives hfilter
            cases hfilter
            rw [hgives.1] at hkind
            rw [← Except.ok.inj hkind, hgives.2.1]
        | _ =>
            rw [hform] at hfilter
            cases hfilter
      · have hgives := infer_gives (hadmitted.typed (Form.isComposite_of_isPure hpure))
        exact eval?_kind hgives (forall₂_imp_of_mem hargs fun d hd a ha => hoperand hd ha) hv

/-- A filter that remembers nothing puts out its input. -/
theorem react_filter {form : Form α} {parameters : Parameters α} {primitive : Primitive α}
    {x : ExprId} (hfilter : form.filtered? = some x)
    (hprimitive : form.primitive? parameters = some primitive) {v : Value α}
    (hv : v.kind = .double) (around : Surroundings α) (kind : Kind) :
    ∃ m, primitive.react around kind none [v] = .ok (v, m) := by
  obtain ⟨a, rfl⟩ := Value.asDouble?_of_kind hv
  cases form with
  | smooth y tau =>
      cases hprimitive
      exact ⟨_, rfl⟩
  | rateLimit y rate =>
      cases hprimitive
      exact ⟨_, rfl⟩
  | _ => cases hfilter

/-- **One block.**  In its first cycle the primitive of a known expression
reacts to the known values of the operands with the known value of the
expression. -/
theorem Known.react (hp : p.WellFormed) {id : ExprId} {n : Node α} {v : Value α}
    (h : p.Known host id v) (hn : p.get? id = some n) {parameters : Parameters α}
    {primitive : Primitive α} (hprimitive : n.form.primitive? parameters = some primitive)
    {around : Surroundings α} (hsensors : ∀ name, around.sensors.get? name = host.reading name) :
    ∃ args m, List.Forall₂ (p.Known host) n.dependencies args ∧
      primitive.react around n.kind none args = .ok (v, m) := by
  rcases h.inversion hn with hform | ⟨name, device, hform, hreading, -⟩ |
    ⟨source, target, hform, -⟩ | ⟨x, hfilter, hx⟩ | ⟨hpure, args, hargs, hv⟩
  · rw [hform] at hprimitive
    cases hprimitive
  · rw [hform] at hprimitive
    cases hprimitive
    refine ⟨[], none, ?_, ?_⟩
    · rw [Node.dependencies, hform]
      exact List.Forall₂.nil
    · simp only [Primitive.react, hsensors, hreading, Option.getD_some]
  · rw [hform] at hprimitive
    cases hprimitive
  · have hdeps : n.dependencies = [x] := dependencies_of_filtered? hfilter
    have hdouble : n.kind = .double := by
      have hgives := infer_gives ((hp.admitted hn).typed (by
        cases hform : n.form <;> simp_all [Form.filtered?, Form.isComposite]))
      cases hform : n.form <;> simp_all [Form.filtered?, Gives]
    have hkind := h.kind hp hn
    rw [hdouble] at hkind
    obtain ⟨m, hm⟩ := react_filter hfilter hprimitive hkind around n.kind
    refine ⟨[v], m, ?_, hm⟩
    rw [hdeps]
    exact List.Forall₂.cons hx List.Forall₂.nil
  · refine ⟨args, none, hargs, ?_⟩
    rw [Form.react_eq (Form.isComposite_of_isPure hpure) (Form.isStateful_of_isPure hpure)
      hprimitive]
    exact operator_eq_ok.mpr ⟨hv, rfl⟩

end Pool

/-! ### Every block stands for an expression -/

namespace Session

variable {program : Program α} {P : ExprId → Prop}

/-- A faithful session in which every block is the block of a constant or of
an expression. -/
structure Covered (program : Program α) (P : ExprId → Prop) (s : Session α) : Prop
    extends Faithful program P s where
  blocks : ∀ {b : BlockId} {blk : Block α} {q : PortId}, s.fragment.blocks[b]? = some blk →
    blk.output = some q →
    (∃ c, s.constants.get? c = some q) ∨ ∃ id, s.lowered.get? id = some q

theorem covered_empty (program : Program α) (P : ExprId → Prop) :
    Covered program P (empty : Session α) :=
  ⟨faithful_empty program P, fun h => by simp [empty] at h⟩

/-- **The step of lowering.**  Lowering and entering a node that is no relation
covers the blocks that it adds. -/
theorem LoweredBy.covered (hP : SelfContained program P) {id : ExprId} {n : Node α}
    {inputs : List PortId} {s s' : Session α} {q : PortId} (hid : P id)
    (hn : program.pool.get? id = some n)
    (hrelation : ∀ source target, n.form ≠ .relation source target)
    (hfresh : s.lowered.get? id = none) (hs : Covered program P s)
    (hinputs : List.Forall₂ (fun d q => s.lowered.get? d = some q) n.dependencies inputs)
    (h : LoweredBy program id n inputs s q s') : Covered program P (s'.entered id q) := by
  refine ⟨h.faithful hP hid hn hfresh hs.toFaithful hinputs, ?_⟩
  have hlowered := h.lowered
  have hentry : (s'.entered id q).lowered.get? id = some q := Table.get?_insert_self _ _ _
  -- What was covered before is covered by the same entry.
  have hkept : ∀ {r : PortId}, (∃ j, s.lowered.get? j = some r) →
      ∃ j, (s'.entered id q).lowered.get? j = some r := by
    rintro r ⟨j, hj⟩
    rw [← hlowered] at hj hfresh
    exact ⟨j, (extends_entered hfresh).lowered hj⟩
  have hconstant : ∀ {v : Value α}, constPort v s = .ok q s' →
      ∀ {b : BlockId} {blk : Block α} {r : PortId}, s'.fragment.blocks[b]? = some blk →
      blk.output = some r → (∃ c, s'.constants.get? c = some r) ∨
        ∃ j, (s'.entered id q).lowered.get? j = some r := by
    intro v hrun b blk r hb hr
    have hextends := constPort_extends hs.wellFormed hrun
    have hold : s.fragment.blocks[b]? = some blk → (∃ c, s'.constants.get? c = some r) ∨
        ∃ j, (s'.entered id q).lowered.get? j = some r := by
      intro hold
      rcases hs.blocks hold hr with ⟨c, hc⟩ | hj
      · exact Or.inl ⟨c, hextends.constants hc⟩
      · exact Or.inr (hkept hj)
    rcases constPort_cases hs.wellFormed hrun with ⟨-, rfl⟩ | ⟨-, f, hadded, rfl⟩
    · exact hold hb
    · rcases hadded.block_cases hb with hb | ⟨-, rfl⟩
      · exact hold hb
      · cases hr
        exact Or.inr ⟨id, hentry⟩
  intro b blk r hb hr
  cases h with
  | constant hform hrun => exact hconstant hrun hb hr
  | parameter hform _ _ hrun => exact hconstant hrun hb hr
  | relation hform _ => exact absurd hform (hrelation _ _)
  | placeholder hform _ =>
      have hplain := hP.plain hid hn
      rw [hform] at hplain
      cases hplain
  | block hform hrun =>
      obtain ⟨f, kinds, hadded, rfl⟩ := add_added hs.wellFormed hrun
      rcases hadded.block_cases hb with hb | ⟨-, rfl⟩
      · rcases hs.blocks hb hr with ⟨c, hc⟩ | hj
        · exact Or.inl ⟨c, hc⟩
        · exact Or.inr (hkept hj)
      · cases hr
        exact Or.inr ⟨id, hentry⟩

/-- **A compiled expression covers its network.** -/
theorem compile_expr_covered (hp : program.pool.WellFormed) (hrules : program.rules = .standard)
    {id : ExprId} (hP : SelfContained program (program.pool.Reaches id))
    (hrelation : ∀ j n, program.pool.Reaches id j → program.pool.get? j = some n →
      ∀ source target, n.form ≠ .relation source target)
    {parameters : Parameters α} {s' : Session α} {net : CompiledNet α}
    (h : compile program { target := .expr id, parameters } empty = .ok net s') :
    ∃ s q, Covered program (program.pool.Reaches id) s ∧ s.fragment = net.fragment ∧
      s.lowered.get? id = some q ∧ net.root = some q ∧ net.fragment.validate = .ok () := by
  obtain ⟨q, s, f, hlower, hexpose, hnet⟩ := compile_expr_cases h
  obtain ⟨hcovered, hentry, -, -⟩ := lowerWithin_induct hp (.of_rules hrules)
    hP.closed
    (fun hid hn hfresh hs hinputs hby _ =>
      hby.covered hP hid hn (hrelation _ _ hid hn) hfresh hs hinputs)
    .root (covered_empty program _) hlower
  obtain ⟨hfragment, hroot, hvalid⟩ := hnet hcovered.placeholders hcovered.signals
  obtain ⟨-, -, -, -, hblocks, -⟩ := Fragment.expose_eq_ok hexpose
  refine ⟨{ s with fragment := f }, q, ⟨hcovered.toFaithful.exposed hexpose, ?_⟩,
    hfragment.symm, hentry, hroot, ?_⟩
  · intro b blk r hb hr
    have hold : s.fragment.blocks[b]? = some blk := by
      rw [← hblocks]
      exact hb
    exact hcovered.blocks hold hr
  · rw [hfragment]
    exact hvalid

end Session

/-! ### The first cycle -/

/-- Literals of a pool that are structurally equal are the same. -/
theorem Pool.WellFormed.literal_unique {p : Pool α} (hp : p.WellFormed) {i j : ExprId}
    {m n : Node α} {v w : Value α} (hm : p.get? i = some m) (hn : p.get? j = some n)
    (hv : m.form = .constant v) (hw : n.form = .constant w) (h : v.canonical = w.canonical) :
    v = w := by
  have hleaf : ∀ {k : ExprId} {l : Node α} {u : Value α}, p.get? k = some l →
      l.form = .constant u → l.kind = u.canonical.kind ∧ l.scope = .global ∧ l.constant = true := by
    intro k l u hl hu
    have hadmitted := hp.admitted hl
    have hdata := hadmitted.leaf (by rw [hu]; rfl)
    have hconstant := hadmitted.constancy
    simp only [Node.OfLeaf, hu] at hdata
    rw [hu] at hconstant
    exact ⟨hdata.1.trans (Value.kind_map _ _).symm, hdata.2, hconstant⟩
  obtain ⟨hkind, hscope, hconstant⟩ := hleaf hm hv
  obtain ⟨hkind', hscope', hconstant'⟩ := hleaf hn hw
  have hsame : m.canonical = n.canonical := by
    cases m
    cases n
    simp_all [Node.canonical, Form.canonical]
  obtain rfl := hp.distinct hm hn hsame
  rw [hm] at hn
  cases hn
  rw [hv] at hw
  cases hw
  rfl

namespace Session

variable {program : Program α} {P : ExprId → Prop} {s : Session α}

/-- What a port is expected to carry: the known value of its expression, or
the constant in its block. -/
def Expects (program : Program α) (s : Session α) (q : PortId) (v : Value α) : Prop :=
  (∃ id, s.lowered.get? id = some q ∧ program.pool.Known program.host id v) ∨
    ∃ kind, s.fragment.Makes q (.constant v) [] kind

/-- Where all expressions are known, the block behind a literal holds that very
literal: there are no values of parameters, and no poses, to share it with. -/
theorem Grounded.literal (hp : program.pool.WellFormed) (h : Grounded program P s) {host : Host α}
    (hknown : ∀ {id : ExprId}, P id → ∃ v, program.pool.Known host id v)
    (hrelation : ∀ {id : ExprId} {n : Node α}, P id → program.pool.get? id = some n →
      ∀ source target, n.form ≠ .relation source target)
    {c : Value α} {q : PortId} (hq : s.constants.get? c = some q) :
    ∃ v, s.fragment.Makes q (.constant v) [] v.kind ∧ ∀ {id : ExprId} {n : Node α} {w : Value α},
      program.pool.get? id = some n → n.form = .constant w → w.canonical = c → w = v := by
  obtain ⟨v, hv, ⟨i, m, hi, hm, hconstant⟩, hmakes⟩ := h.constants hq
  refine ⟨v, hmakes, ?_⟩
  intro id n w hn hform hw
  rcases hconstant with hliteral | ⟨name, hparameter, -⟩ | ⟨source, target, path, hmotion, -⟩
  · exact hp.literal_unique hn hm hform hliteral (hw.trans hv.symm)
  · obtain ⟨u, hu⟩ := hknown hi
    exact absurd hparameter ((hu.form hm).2 name)
  · exact absurd hmotion (hrelation hi hm source target)

/-- What the operands are known to be is what their ports are expected to
carry. -/
theorem expected_of_known {ids : List ExprId} {sources : List PortId}
    {args : List (Value α)}
    (hsources : List.Forall₂ (fun d source => s.lowered.get? d = some source) ids sources)
    (hargs : List.Forall₂ (program.pool.Known program.host) ids args) :
    List.Forall₂ (s.Expects program) sources args := by
  induction hsources generalizing args with
  | nil =>
      cases hargs
      exact List.Forall₂.nil
  | cons hsource _ ih =>
      cases hargs with
      | cons hv hrest => exact List.Forall₂.cons (Or.inl ⟨_, hsource, hv⟩) (ih hrest)

/-- **The first cycle of known expressions has a forecast.** -/
theorem Covered.forecast (hp : program.pool.WellFormed) (h : Covered program P s)
    (hknown : ∀ {id : ExprId}, P id → ∃ v, program.pool.Known program.host id v)
    (hrelation : ∀ {id : ExprId} {n : Node α}, P id → program.pool.get? id = some n →
      ∀ source target, n.form ≠ .relation source target)
    {sim : Simulator α} (hfragment : sim.fragment = s.fragment)
    (hfresh : ∀ b, sim.memories.get? b = none)
    (hsensors : ∀ name, sim.around.sensors.get? name = program.host.reading name) :
    sim.Forecast (s.Expects program) := by
  have hmakes : ∀ {q : PortId} {v : Value α} {kind : Kind},
      s.fragment.Makes q (.constant v) [] kind → ∃ primitive sources kind b blk args m,
        sim.fragment.Produces q primitive sources kind b blk ∧ primitive.isDelay = false ∧
        List.Forall₂ (s.Expects program) sources args ∧
        primitive.react sim.around kind (sim.memories.get? b) args = .ok (v, m) := by
    rintro q v kind ⟨b, blk, hproduces⟩
    rw [← hfragment] at hproduces
    exact ⟨_, _, _, b, blk, [], none, hproduces, rfl, List.Forall₂.nil, rfl⟩
  refine ⟨?_, ?_⟩
  · rintro q v (⟨id, hentry, hv⟩ | ⟨kind, hconstant⟩)
    · obtain ⟨hid, n, hn, hrepresents⟩ := h.entries hentry
      cases hrepresents with
      | @constant w hform hport =>
          obtain ⟨u, hblock, hsame⟩ := h.literal hp hknown hrelation hport
          rw [hv.of_constant hn hform, hsame hn hform rfl]
          exact hmakes hblock
      | parameter hform _ _ => exact absurd hform ((hv.form hn).2 _)
      | relation hform _ _ => exact absurd hform (hrelation hid hn _ _)
      | block hform hproduces hsources =>
          obtain ⟨args, m, hargs, hreact⟩ := hv.react hp hn hform hsensors
          rw [← hfragment] at hproduces
          refine ⟨_, _, _, _, _, args, m, hproduces, Primitive.isDelay_of_react hreact,
            expected_of_known hsources hargs, ?_⟩
          rw [hfresh]
          exact hreact
    · exact hmakes hconstant
  · intro b blk hb
    rw [hfragment] at hb
    obtain ⟨q, hq⟩ := h.outputs hb
    rcases h.blocks hb hq with ⟨c, hc⟩ | ⟨id, hentry⟩
    · obtain ⟨v, hblock, -⟩ := h.literal hp hknown hrelation hc
      exact ⟨q, v, hq, Or.inr ⟨_, hblock⟩⟩
    · obtain ⟨v, hv⟩ := hknown (h.entries hentry).1
      exact ⟨q, v, hq, Or.inl ⟨id, hentry, hv⟩⟩

end Session

/-- **Probes agree with networks.**  If a probe finds the value of an
expression without relations, and the expression is compiled with the rules of
the library, then the first cycle of the network is completed and its root
carries that very value, provided the sensors of the network read what they
read for the host. -/
theorem Compiler.compile_expr_carries_cheapValue {pool : Pool α} (hpool : pool.Reachable)
    {settings : Settings α} {host : Host α} {parameters : Parameters α} {id : ExprId}
    {v : Value α} {net : CompiledNet α}
    (hrelation : ∀ j n, pool.Reaches id j → pool.get? j = some n →
      ∀ source target, n.form ≠ .relation source target)
    (hcheap : pool.cheapValue? host id = some v)
    (hnet : Compiler.compile ⟨.standard, settings⟩ pool host
      { target := .expr id, parameters } = .ok net)
    {period : α} (hfinite : Scalar.isFinite period = true)
    (hpositive : Scalar.lt 0 period = true) :
    ∃ root s₀, net.root = some root ∧ Simulator.start net.fragment period = .ok s₀ ∧
      ∀ x : Stimulus α, (∀ name, (s₀.feed x).around.sensors.get? name = host.reading name) →
        ∃ s, Simulator.step (s₀.feed x) = .ok () s ∧ s.value? root = some v := by
  have hp := hpool.wellFormed
  have hknown := Pool.cheapValue?_known hcheap
  obtain ⟨s', hsession⟩ := Compiler.compile_eq_ok hnet
  have hall : ∀ {j : ExprId}, pool.Reaches id j → ∃ w, pool.Known host j w :=
    fun hj => hknown.reaches hj
  have hcontained : Session.SelfContained ⟨pool, .standard, parameters, settings, host⟩
      (pool.Reaches id) := by
    refine ⟨fun hj hn d hd => .operand hj hn hd, ?_⟩
    intro j n hj hn
    obtain ⟨w, hw⟩ := hall hj
    exact (hw.form hn).1
  obtain ⟨s, root, hcovered, hfragment, hentry, hroot, hvalid⟩ :=
    Session.compile_expr_covered hp rfl hcontained hrelation hsession
  obtain ⟨s₀, hstart⟩ := Simulator.start_total hvalid hfinite hpositive
  refine ⟨root, s₀, hroot, hstart, ?_⟩
  intro x hsensors
  obtain ⟨horder, hfed, hs₀⟩ := Simulator.start_eq_ok hstart
  have hsim : (s₀.feed x).fragment = s.fragment := by
    rw [Simulator.feed_eq, hfragment, hs₀]
  have hfresh : ∀ b, (s₀.feed x).memories.get? b = none := by
    intro b
    rw [Simulator.feed_eq, hs₀]
    rfl
  have hwell : (s₀.feed x).fragment.WellFormed := by
    rw [hsim]
    exact hcovered.wellFormed
  have hschedule : (s₀.feed x).fragment.Schedules (s₀.feed x).order := by
    have hf : net.fragment.WellFormed := hfragment ▸ hcovered.wellFormed
    rw [Simulator.feed_eq, hs₀]
    exact Fragment.schedules_of_evaluationOrder hf horder
  have hforecast :=
    hcovered.forecast hp hall (fun hj hn => hrelation _ _ hj hn) hsim hfresh hsensors
  have hopen : (s₀.feed x).fragment = net.fragment := hsim.trans hfragment
  obtain ⟨s₁, hstep, hvalues⟩ := hforecast.step hwell hschedule (by rw [hopen]; exact hfed)
  exact ⟨s₁, hstep, hvalues (Or.inl ⟨id, hentry, hknown⟩)⟩

/-- The pool of a sample expression: the reading of a sensor, scaled and
shifted by smoothed constants. -/
def Sample.scaled : Pool Float :=
  Pool.performAll [.constant (.double 2), .sensor "t" .double, .binary .mul 1 0, .smooth 0 0.5,
    .binary .add 2 3] { folding := false }

/-- A host with one reading. -/
def Sample.thermometer : Host Float :=
  .ofTables (DeviceTable.record {} "t" (.double 3)) {}

theorem Compiler.scaled_carries_cheapValue :
    ∃ net root s₀ s, Compiler.compile ⟨.standard, .standard⟩ Sample.scaled Sample.thermometer
        { target := .expr 4 } = .ok net ∧ net.root = some root ∧
      Simulator.start net.fragment 0.25 = .ok s₀ ∧
      Simulator.step (s₀.feed { sensors := [("t", .double 3)] }) = .ok () s ∧
      s.value? root = some (.double 8) := by
  have hok : (Compiler.compile ⟨.standard, .standard⟩ Sample.scaled Sample.thermometer
      { target := .expr 4 }).isOk = true := by decide +kernel
  have hcheap : Sample.scaled.cheapValue? Sample.thermometer 4 = some (.double 8) := by
    decide +kernel
  have hnodes : (Sample.scaled.nodes.all fun n => match n.form with
      | .relation _ _ => false
      | _ => true) = true := by decide +kernel
  cases hnet : Compiler.compile ⟨.standard, .standard⟩ Sample.scaled Sample.thermometer
      { target := .expr 4 } with
  | error e =>
      rw [hnet] at hok
      cases hok
  | ok net =>
      obtain ⟨root, s₀, hroot, hstart, hagrees⟩ :=
        Compiler.compile_expr_carries_cheapValue ⟨false, _, rfl⟩
          (fun j n _ hn source target hform => by
            have hnode := Pool.all_nodes hnodes hn
            rw [hform] at hnode
            cases hnode)
          hcheap hnet (by decide +kernel : Scalar.isFinite (0.25 : Float) = true)
          (by decide +kernel)
      obtain ⟨-, -, hs₀⟩ := Simulator.start_eq_ok hstart
      obtain ⟨s, hstep, hvalue⟩ := hagrees { sensors := [("t", .double 3)] } (by
        intro name
        rw [Simulator.feed_eq, hs₀]
        rfl)
      exact ⟨net, root, s₀, s, rfl, hroot, hstart, hstep, hvalue⟩

end SignalNet
