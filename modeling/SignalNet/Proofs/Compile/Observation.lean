import SignalNet.Proofs.Compile.Lookups
import SignalNet.Proofs.Compile.Supply
import SignalNet.Proofs.Net.Sharing
import SignalNet.Proofs.Scalar.Zeros

/-!
# Observing does not disturb

Observed expressions are lowered into the network that they are to observe.
They share ports and constants with the target and change the order in which
blocks are evaluated.  What the target and its signals do stays the same.

A request and the same request with more observed expressions have the session
in common in which the target has been lowered and published
(`Session.introduce`).  Whatever brings this session to its end adds no sinks
and feeds the blocks that are there alike (`Session.Closing.shares`), because
the sources for open placeholders were lowered with the target.  So the two
networks have a common part, and `Compiler.observation_undisturbing` is what
this means for runs.
-/

namespace SignalNet

open Computing Lowering

namespace Session

variable {α : Type} [Scalar α] {program : Program α} {s s' t t' : Session α}

/-! ### Names -/

omit [Scalar α] in
/-- No port gets a name. -/
def SameOutputs (s s' : Session α) : Prop :=
  s.fragment.WellFormed → s'.fragment.WellFormed ∧ s'.fragment.outputs = s.fragment.outputs

theorem stepwise_sameOutputs : Stepwise (SameOutputs (α := α)) where
  refl _ h := ⟨h, rfl⟩
  trans h₁ h₂ h := by
    obtain ⟨hwell₁, hsame₁⟩ := h₁ h
    obtain ⟨hwell₂, hsame₂⟩ := h₂ hwell₁
    exact ⟨hwell₂, hsame₂.trans hsame₁⟩
  add := by
    intro primitive inputs kind s s' q hrun h
    obtain ⟨f, kinds, hadded, rfl⟩ := add_added h hrun
    exact ⟨hadded.valid, by rw [hadded.result]; rfl⟩
  constPort := by
    intro v s s' q hrun h
    rcases constPort_cases h hrun with ⟨-, rfl⟩ | ⟨-, f, hadded, rfl⟩
    · exact ⟨h, rfl⟩
    · exact ⟨hadded.valid, by rw [hadded.result]; rfl⟩

/-- Only targets and observed expressions have names. -/
theorem finishing_sameOutputs (program : Program α) :
    Finishing program SameOutputs where
  toStepwise := stepwise_sameOutputs
  lower := by
    refine stepwise_sameOutputs.lower ?_ fun _ _ _ h => ⟨h, rfl⟩
    intro id n number label hn hform s s' q hrun h
    obtain ⟨hfits, -, rfl⟩ := openPlaceholder_eq_ok hn hform hrun
    exact ⟨h.withBlock hfits, rfl⟩
  resolve := by
    intro number port s s' u hrun h
    obtain ⟨p, -, hports, hfree, rfl⟩ := resolve_eq_ok hrun
    exact ⟨h.withWire hports hfree, rfl⟩

/-! ### The end of a session -/

/-- The second session is the first one brought to its end: all loops are
closed, and no sinks and no signals were added. -/
structure Completes (program : Program α) (s s' : Session α) : Prop where
  wired : Wired program s'
  grows : s.Grows [] s'
  resolved : Resolved program s'
  sinks : ∀ b slot, s'.fragment.Writes b slot → s.fragment.Writes b slot
  signals : s'.fragment.signals = s.fragment.signals

/-- Expressions may be observed before. -/
theorem Completes.observe (hwired : Wired program s)
    {ids : List ExprId} {channels observed : Table ExprId String}
    (hobserve : observeEach program ids channels s = .ok observed t)
    (h : Completes program t s') : Completes program s s' := by
  obtain ⟨-, hgrows⟩ := (closed_steps program []).observeEach _ _ _ _ _ hobserve hwired
  obtain ⟨-, hsinks⟩ :=
    (acting_quiet program []).observeEach _ _ _ _ _ hobserve hwired.wellFormed
  have hsame := (naming_sameSignals program).observeEach _ _ _ _ _ hobserve
  exact ⟨h.wired, hgrows.trans h.grows, h.resolved,
    fun b slot hwrites => hsinks b slot (h.sinks b slot hwrites), h.signals.trans hsame⟩

/-! ### A common part -/

omit [Scalar α] in
theorem isOutput_of_settles {f : Fragment α} {Given : PortId → Prop} {q : PortId}
    (h : f.Settles Given q) (hgiven : ∀ q, Given q → f.IsOutput q) : f.IsOutput q := by
  cases h with
  | given h => exact hgiven _ h
  | delay hmakes _ =>
      obtain ⟨b, blk, hproduces⟩ := hmakes
      exact ⟨b, blk, hproduces.block, hproduces.output⟩
  | block hmakes _ =>
      obtain ⟨b, blk, hproduces⟩ := hmakes
      exact ⟨b, blk, hproduces.block, hproduces.output⟩

theorem Wired.settles_isOutput (h : Wired program s) {ids : List ExprId} {q : PortId}
    (hq : s.fragment.Settles (s.PortOf ids) q) : s.fragment.IsOutput q := by
  refine isOutput_of_settles hq ?_
  rintro p ⟨o, ho, -, hp⟩
  obtain ⟨n, p', -, -, hp', b, blk, hblk, -, -, hout, -⟩ := h.opened o ho
  rw [hp] at hp'
  cases hp'
  exact ⟨b, blk, hblk, hout⟩

/-- The ports of expressions are outputs. -/
theorem Closing.lowered_isOutput {early late : List ExprId} (h : Closing program early late s)
    {id : ExprId} {q : PortId} (hq : s.lowered.get? id = some q) : s.fragment.IsOutput q :=
  h.wired.settles_isOutput (h.settles hq (early ++ late) (Pool.Confined.meetsOnly (h.confined hq)))

omit [Scalar α] in
/-- A copy is fed by what it copies. -/
theorem source_of_makes {f : Fragment α} {input q source : PortId} {kind kind' : Kind}
    (hpasses : f.Passes input q kind) (hmakes : f.Makes q .identity [source] kind') :
    f.producer? input = some source := by
  obtain ⟨b, blk, hproduces⟩ := hmakes
  obtain ⟨b', blk', hblk', -, hinputs, -, hport'⟩ := hpasses
  have hport := hproduces.port
  rw [hport'] at hport
  cases hport
  have hblk := hproduces.block
  rw [hblk'] at hblk
  cases hblk
  have hfed := hproduces.fed
  rw [hinputs] at hfed
  cases hfed with
  | cons hsource _ => exact hsource

/-- At the end, a placeholder copies the source that was first. -/
theorem Completes.source (hrules : program.rules = .standard) (h : Completes program s s') {o : OpenPlaceholder} {n : Node α}
    {label : String} {q : PortId} (hn : program.pool.get? o.expr = some n)
    (hform : n.form = .placeholder o.number label) (hq : s.lowered.get? o.expr = some q)
    (hpasses : s.fragment.Passes o.input q n.kind) :
    ∃ r source, s.resolver? o.expr = some r ∧ s'.SourceAt source r.source ∧
      s'.fragment.producer? o.input = some source := by
  obtain ⟨r, source, hr, hsource, hmakes⟩ := h.resolved (h.grows.lowered hq) hn
    (hrules ▸ Rules.standard_keeps n.form) hform
  rw [h.grows.resolver?_eq List.not_mem_nil] at hr
  exact ⟨r, source, hr, hsource, source_of_makes (hpasses.extend h.grows.fragment) hmakes⟩

/-- A source that is there has one port in both ends of a session, or stands
for one constant in both. -/
theorem Closing.alike {early late : List ExprId} {Permitted : Value α → Prop}
    (hpermitted : ∀ v w, Permitted v → w.canonical = v.canonical → w = v)
    (hs : Closing program early late s) (ht : Completes program s t)
    (ht' : Completes program s t') {source : Source α} (hprovided : Provided Permitted [] s source)
    (htimed : Timed program early late early s source) {p q : PortId}
    (hp : t.SourceAt p source) (hq : t'.SourceAt q source) :
    Fragment.Alike Permitted s.fragment t.fragment t'.fragment p q := by
  cases source with
  | expression e =>
      obtain ⟨r, hr⟩ := hprovided.resolve_right List.not_mem_nil
      obtain rfl : r = p := Option.some.inj ((ht.grows.lowered hr).symm.trans hp)
      obtain rfl : r = q := Option.some.inj ((ht'.grows.lowered hr).symm.trans hq)
      exact .common (hs.lowered_isOutput hr) rfl
  | constant v =>
      obtain ⟨w, hw, hmakes⟩ := ht.wired.constants hp
      obtain ⟨w', hw', hmakes'⟩ := ht'.wired.constants hq
      obtain rfl := hpermitted v w hprovided hw
      obtain rfl := hpermitted w w' hprovided hw'
      exact .constant hprovided hmakes hmakes'
  | port r =>
      obtain rfl : r = p := hp
      obtain rfl : r = q := hq
      exact .common (hs.wired.settles_isOutput htimed) rfl

/-- **Two ends of one session have a common part**, which is the session. -/
theorem Closing.shares {early late : List ExprId} {Permitted : Value α → Prop}
    (hpermitted : ∀ v w, Permitted v → w.canonical = v.canonical → w = v)
    (hrules : program.rules = .standard) (hs : Closing program early late s) (hsupplied : Supplied Permitted [] s)
    (ht : Completes program s t) (ht' : Completes program s t') :
    Fragment.Shares Permitted s.fragment t.fragment t'.fragment where
  wellFormed := hs.wired.wellFormed
  left := ht.grows.fragment
  right := ht'.grows.fragment
  fed := by
    intro b blk hblk input hinput
    rcases hs.forward b blk hblk with ⟨o, ho, hinputs⟩ | hfed
    · rw [hinputs] at hinput
      obtain rfl := List.mem_singleton.mp hinput
      obtain ⟨n, q, hn, hform, hq, hpasses⟩ := hs.wired.opened o ho
      obtain ⟨r, source, hr, hsource, hproducer⟩ := ht.source hrules hn hform hq hpasses
      obtain ⟨r', source', hr', hsource', hproducer'⟩ := ht'.source hrules hn hform hq hpasses
      rw [hr] at hr'
      cases hr'
      have htimed := (hs.sources r (List.mem_of_find?_eq_some hr)).timed
      exact ⟨source, source', hproducer, hproducer',
        hs.alike hpermitted ht ht' (hsupplied _ r hr) htimed hsource hsource'⟩
    · obtain ⟨source, port, hsource, -⟩ := hfed input hinput
      exact ⟨source, source, ht.grows.fragment.producer? hsource,
        ht'.grows.fragment.producer? hsource,
        .common (hs.wired.wellFormed.source_isOutput hsource) rfl⟩

/-! ### Requests -/

/-- What a compilation begins with: the target and the observed expressions are
lowered and get their names. -/
def introduce (program : Program α) (request : Request α) :
    Lowering α ((PortId ⊕ ActionPorts) × Table ExprId String) := do
  let target ← lowerTarget program request.target
  publish target
  let observed ← observeEach program request.observed .empty
  return (target, observed)

/-- What it ends with: signals are gathered, and loops are closed. -/
def conclude (program : Program α) (target : PortId ⊕ ActionPorts)
    (observed : Table ExprId String) : Lowering α (CompiledNet α) := do
  let registry := (← get).fragment.signals
  let states ← aggregateStates registry registry.states .empty
  let exceptions ← aggregateClasses registry registry.hierarchy .empty
  let fragment ← finish program
  return { fragment, root := target.getLeft?, states, exceptions, observed }

theorem compile_eq_introduce (request : Request α) :
    Session.compile program request =
      introduce program request >>= fun r => conclude program r.1 r.2 := by
  simp only [introduce, bind_assoc, pure_bind]
  rfl

theorem observeEach_append (ids more : List ExprId) (channels : Table ExprId String) :
    observeEach program (ids ++ more) channels =
      observeEach program ids channels >>= observeEach program more := by
  induction ids generalizing channels with
  | nil => rfl
  | cons id rest ih =>
      rw [List.cons_append, observeEach, observeEach]
      simp only [bind_assoc, ih]

/-- More observed expressions come after the others. -/
theorem introduce_append (request : Request α) (more : List ExprId) :
    introduce program { request with observed := request.observed ++ more } =
      introduce program request >>= fun r => observeEach program more r.2 >>= fun observed =>
        Pure.pure (r.1, observed) := by
  simp only [introduce, observeEach_append, bind_assoc, pure_bind]

/-- **The end of a compilation.** -/
theorem conclude_completes (hp : program.pool.WellFormed) (hwired : Wired program s)
    {target : PortId ⊕ ActionPorts} {observed : Table ExprId String} {net : CompiledNet α}
    (hrun : conclude program target observed s = .ok net s') :
    Completes program s s' ∧ s'.fragment = net.fragment ∧
      net.fragment.outputs = s.fragment.outputs ∧ net.root = target.getLeft? := by
  unfold conclude at hrun
  rw [get_bind] at hrun
  obtain ⟨states, s₁, hstates, hafter⟩ := bind_eq_ok.mp hrun
  obtain ⟨exceptions, s₂, hexceptions, hafter⟩ := bind_eq_ok.mp hafter
  obtain ⟨fragment, s₃, hfinish, hafter⟩ := bind_eq_ok.mp hafter
  obtain ⟨rfl, rfl⟩ := pure_eq_ok.mp hafter
  have hquiet := (finishing_quiet program).gather hstates hexceptions hfinish
  have hsignals := (finishing_sameSignals program).gather hstates hexceptions hfinish
  have houtputs := (finishing_sameOutputs program).gather hstates hexceptions hfinish
  obtain ⟨h₁, hgrows₁⟩ := (closed_steps program []).aggregateStates _ _ _ _ _ _ hstates hwired
  obtain ⟨h₂, hgrows₂⟩ := (closed_steps program []).aggregateClasses _ _ _ _ _ _ hexceptions h₁
  obtain ⟨⟨h₃, hgrows₃⟩, hfragment, hresolved⟩ :
      (Wired program s₃ ∧ s₂.Grows [] s₃) ∧ s₃.fragment = fragment ∧ Resolved program s₃ :=
    h₂.finish hp hfinish
  refine ⟨⟨h₃, hgrows₁.trans (hgrows₂.trans hgrows₃), hresolved, (hquiet hwired.wellFormed).2,
    hsignals⟩, hfragment, ?_, rfl⟩
  rw [← hfragment]
  exact (houtputs hwired.wellFormed).2

/-- What follows after the target has been lowered lets the session grow. -/
theorem introduce_grows (hprogram : program.Regular) {request : Request α}
    (hrequest : request.Plain program.pool) {target : PortId ⊕ ActionPorts}
    {observed : Table ExprId String}
    (hrun : introduce program request .empty = .ok (target, observed) s) :
    ∃ s₁, lowerTarget program request.target .empty = .ok target s₁ ∧ s₁.Grows [] s := by
  obtain ⟨target', s₁, htarget, hafter⟩ := bind_eq_ok.mp hrun
  obtain ⟨_, s₂, hpublish, hafter⟩ := bind_eq_ok.mp hafter
  obtain ⟨_, s₃, hobserve, hafter⟩ := bind_eq_ok.mp hafter
  obtain ⟨heq, rfl⟩ := pure_eq_ok.mp hafter
  cases heq
  have hlawful : (closing program request.target.early request.target.late).Lawful program :=
    closing_lawful hprogram
  obtain ⟨hok, -⟩ := hlawful.lowerTarget hrequest.roots hrequest.target.sources closing_empty
  have h₁ : Wired program s₁ := (hok _ _ htarget).1.wired
  have hclosed := closed_steps program []
  obtain ⟨h₂, hgrows₂⟩ := hclosed.publish steps_register _ _ _ _ hpublish h₁
  obtain ⟨-, hgrows₃⟩ := hclosed.observeEach _ _ _ _ _ hobserve h₂
  exact ⟨s₁, htarget, hgrows₂.trans hgrows₃⟩

/-- **The beginning of a compilation** keeps loops closable. -/
theorem introduce_closing (hprogram : program.Regular) {request : Request α}
    (hrequest : request.Plain program.pool)
    {r : (PortId ⊕ ActionPorts) × Table ExprId String}
    (hrun : introduce program request .empty = .ok r s) :
    Closing program request.target.early request.target.late s := by
  have hlawful : (closing program request.target.early request.target.late).Lawful program :=
    closing_lawful hprogram
  have hsafe : (closing program request.target.early request.target.late).Safe
      (introduce program request) .empty fun _ _ => True := by
    refine hlawful.bind (hlawful.lowerTarget hrequest.roots hrequest.target.sources)
      fun target s₁ _ _ hports => ?_
    refine hlawful.bind (hlawful.publish hports) fun _ s₂ _ _ _ => ?_
    refine hlawful.bind (hlawful.observeEach fun id hid => ?_) fun _ _ _ _ _ =>
      hlawful.pure trivial
    exact hrequest.roots id (List.mem_append_right _ hid)
  exact ((hsafe closing_empty).1 _ _ hrun).1

/-- The root of an expression is its output. -/
theorem lowerTarget_root {target : Target α} {q : PortId}
    (hrun : lowerTarget program target s = .ok (.inl q) s') :
    s'.fragment.output? "out" = some q := by
  cases target with
  | expr id =>
      obtain ⟨port, s₁, -, hafter⟩ := bind_eq_ok.mp hrun
      obtain ⟨_, s₂, hexpose, hafter⟩ := bind_eq_ok.mp hafter
      obtain ⟨heq, rfl⟩ := pure_eq_ok.mp hafter
      cases heq
      obtain ⟨f, hcall, rfl⟩ := wire_eq_ok.mp hexpose
      obtain ⟨-, -, hname, -⟩ := Fragment.expose_eq_ok hcall
      exact hname
  | action a =>
      rw [lowerTarget] at hrun
      dsimp only at hrun
      split at hrun
      · obtain ⟨_, s₁, -, hafter⟩ := bind_eq_ok.mp hrun
        obtain ⟨ports, s₂, -, hafter⟩ := bind_eq_ok.mp hafter
        obtain ⟨heq, -⟩ := pure_eq_ok.mp hafter
        cases heq
      · obtain ⟨ports, s₂, -, hafter⟩ := bind_eq_ok.mp hrun
        obtain ⟨heq, -⟩ := pure_eq_ok.mp hafter
        cases heq
  | command c =>
      obtain ⟨ports, s₁, -, hafter⟩ := bind_eq_ok.mp hrun
      obtain ⟨heq, -⟩ := pure_eq_ok.mp hafter
      cases heq

/-- What is no command fills no slots. -/
theorem introduce_quiet {request : Request α}
    (htarget : ∀ c, request.target ≠ .command c)
    {r : (PortId ⊕ ActionPorts) × Table ExprId String}
    (hrun : introduce program request .empty = .ok r s) (b : BlockId) (slot : Nat) :
    ¬ s.fragment.Writes b slot := by
  have hquiet := acting_quiet program []
  have hregister : ∀ signal port, Leaves Quiet (register signal port : Lowering α Unit) := by
    intro signal port s s' u hrun
    obtain ⟨f, hcall, rfl⟩ := wire_eq_ok.mp hrun
    obtain rfl := Fragment.register_eq_ok hcall
    exact quiet_of_blocks (fun h => h.withSignals _) rfl
  have hall : Quiet (empty : Session α) s := by
    refine hquiet.bind (lowerTarget_quiet htarget) (fun target => ?_) _ _ _ hrun
    refine hquiet.bind (hquiet.publish hregister target) fun _ => ?_
    exact hquiet.bind (hquiet.observeEach _ _) fun _ => hquiet.pure _
  intro hwrites
  obtain ⟨blk, hblk, -⟩ := (hall Fragment.wellFormed_empty).2 b slot hwrites
  cases hblk

/-! ### Two networks from one session -/

/-- Two networks come from one session, in which the target of a request has
been lowered. -/
structure Branches (request : Request α) (base : Fragment α) (net net' : CompiledNet α) :
    Prop where
  shares : Fragment.Shares request.target.Drives base net.fragment net'.fragment
  sinks : ∀ b slot, net.fragment.Writes b slot → base.Writes b slot
  sinks' : ∀ b slot, net'.fragment.Writes b slot → base.Writes b slot
  quiet : (∀ c, request.target ≠ .command c) → ∀ b slot, ¬ base.Writes b slot
  outputs : net.fragment.outputs = base.outputs
  signals : net.fragment.signals = base.signals
  signals' : net'.fragment.signals = base.signals
  registered : base.signals.Every base.IsOutput
  root : net.root = net'.root
  rooted : ∀ q, net.root = some q → base.IsOutput q

/-- **A request and the same request with more observed expressions** come from
one session. -/
theorem compile_branches (laws : Scalar.ZeroLaws α) (hprogram : program.Regular)
    {request : Request α} (hrequest : request.Plain program.pool) {more : List ExprId}
    {net net' : CompiledNet α}
    (hrun : Session.compile program request .empty = .ok net t)
    (hrun' : Session.compile program { request with observed := request.observed ++ more } .empty =
      .ok net' t') : ∃ base, Branches request base net net' := by
  rw [compile_eq_introduce] at hrun hrun'
  rw [introduce_append] at hrun'
  obtain ⟨⟨target, channels⟩, s, hbegin, hend⟩ := bind_eq_ok.mp hrun
  obtain ⟨r, s', hbegin', hend'⟩ := bind_eq_ok.mp hrun'
  obtain ⟨r₀, s₀, hsame, hafter⟩ := bind_eq_ok.mp hbegin'
  rw [hbegin] at hsame
  cases hsame
  obtain ⟨observed, s₁, hobserve, hafter⟩ := bind_eq_ok.mp hafter
  obtain ⟨rfl, rfl⟩ := pure_eq_ok.mp hafter
  have hclosing := introduce_closing hprogram hrequest hbegin
  obtain ⟨s₂, htarget, hgrows⟩ := introduce_grows hprogram hrequest hbegin
  have hsupplied := (lowerTarget_supplied htarget).grow hgrows
  have hwired := hclosing.wired
  obtain ⟨hcompletes, hfragment, houtputs, hroot⟩ := conclude_completes hprogram.pool hwired hend
  obtain ⟨hwired₁, -⟩ := (closed_steps program []).observeEach _ _ _ _ _ hobserve hwired
  obtain ⟨hlast, hfragment', -, hroot'⟩ := conclude_completes hprogram.pool hwired₁ hend'
  have hcompletes' := hlast.observe hwired hobserve
  -- Sharing does not take another number for one.
  have hpermitted : ∀ v w, request.target.Drives v → w.canonical = v.canonical → w = v := by
    intro v w hv hw
    cases htarget : request.target with
    | action a =>
        rw [htarget] at hv
        obtain rfl : v = .double 1 := hv
        obtain ⟨z, rfl, hz⟩ := Value.eq_double hw
        rw [laws.eq_one hz]
    | expr id =>
        rw [htarget] at hv
        exact hv.elim
    | command c =>
        rw [htarget] at hv
        exact hv.elim
  have hshares := hclosing.shares hpermitted hprogram.rules hsupplied hcompletes hcompletes'
  refine ⟨s.fragment, ?_, ?_, ?_, fun htarget => introduce_quiet htarget hbegin, houtputs,
    ?_, ?_, ?_, hroot.trans hroot'.symm, ?_⟩
  · rw [← hfragment, ← hfragment']
    exact hshares
  · rw [← hfragment]
    exact hcompletes.sinks
  · rw [← hfragment']
    exact hcompletes'.sinks
  · rw [← hfragment]
    exact hcompletes.signals
  · rw [← hfragment']
    exact hcompletes'.signals
  · exact hclosing.signals.mono fun q hq => hwired.settles_isOutput hq
  · intro q hq
    rw [hroot] at hq
    obtain rfl : target = .inl q := Sum.getLeft?_eq_some_iff.mp hq
    exact hwired.wellFormed.exposed_isOutput (hgrows.fragment.outputs (lowerTarget_root htarget))

/-- The sinks of both networks are visited in the same order. -/
theorem Branches.writers {request : Request α} {base : Fragment α} {net net' : CompiledNet α}
    (h : Branches request base net net') (hf : net.fragment.WellFormed)
    (hg : net'.fragment.WellFormed) {order order' : List BlockId}
    (horder : net.fragment.evaluationOrder = .ok order)
    (horder' : net'.fragment.evaluationOrder = .ok order') (slot : Nat) :
    order.filter (net.fragment.storesTo slot) = order'.filter (net'.fragment.storesTo slot) := by
  by_cases htarget : ∃ c, request.target = .command c
  · obtain ⟨c, hc⟩ := htarget
    -- A command needs no constants, so it is fed by what was lowered with it.
    have hshares : Fragment.Shares (fun _ => False) base net.fragment net'.fragment := by
      have hdrives := h.shares
      rw [hc] at hdrives
      exact hdrives
    exact hshares.writers hf hg horder horder'
      (fun b slot hwrites => (h.sinks b slot hwrites).block_lt)
      (fun b slot hwrites => (h.sinks' b slot hwrites).block_lt) slot
  · have hnone := h.quiet fun c hc => htarget ⟨c, hc⟩
    have hleft : ∀ b ∈ order, ¬ net.fragment.storesTo slot b = true :=
      fun b _ hstores => hnone b slot (h.sinks b slot (Fragment.storesTo_iff.mp hstores))
    have hright : ∀ b ∈ order', ¬ net'.fragment.storesTo slot b = true :=
      fun b _ hstores => hnone b slot (h.sinks' b slot (Fragment.storesTo_iff.mp hstores))
    rw [List.filter_eq_nil_iff.mpr hleft, List.filter_eq_nil_iff.mpr hright]

end Session

/-! ### Runs -/

namespace Simulator

variable {α : Type}

/-- Ports of two networks carry the same value. -/
def CarryAlike (s t : Simulator α) (p q : PortId) : Prop :=
  ∃ v, s.value? p = some v ∧ t.value? q = some v

variable {s t : Simulator α} {p q : PortId} {ports : List PortId}

theorem CarryAlike.symm (h : s.CarryAlike t p q) : t.CarryAlike s q p := by
  obtain ⟨v, hs, ht⟩ := h
  exact ⟨v, ht, hs⟩

/-- Disjunctions of ports that carry the same carry the same. -/
theorem Disjoins.carryAlike (h : s.Disjoins ports p) (h' : t.Disjoins ports q)
    (hsame : ∀ r ∈ ports, s.CarryAlike t r r) : s.CarryAlike t p q := by
  have hbooleans : ∀ {s t : Simulator α} {bs : List Bool}, (∀ r ∈ ports, s.CarryAlike t r r) →
      List.Forall₂ (fun r b => s.value? r = some (.boolean b)) ports bs →
      List.Forall₂ (fun r b => t.value? r = some (.boolean b)) ports bs := by
    intro s t bs hsame hports
    refine forall₂_imp_of_mem hports fun r hr b hb => ?_
    obtain ⟨v, hv, hv'⟩ := hsame r hr
    rw [hb] at hv
    cases hv
    exact hv'
  cases h with
  | several bs hports hvalue =>
      exact ⟨_, hvalue, h'.value (hbooleans hsame hports)⟩
  | only =>
      cases h' with
      | only => exact hsame p List.mem_cons_self
      | several bs hports hvalue =>
          have hback := hbooleans (fun r hr => (hsame r hr).symm) hports
          exact ⟨_, (Disjoins.only p).value hback, hvalue⟩

end Simulator

/-- Two runs show the same to whoever looks at the first network: the root, the
outputs, the states and the exceptions carry the same values, and slots keep the
same. -/
structure CompiledNet.Undisturbed {α : Type} (net net' : CompiledNet α) (s t : Simulator α) :
    Prop where
  root : Option.Rel (s.CarryAlike t) net.root net'.root
  outputs : ∀ name q, net.fragment.output? name = some q →
    net'.fragment.output? name = some q ∧ s.CarryAlike t q q
  states : ∀ state, Option.Rel (s.CarryAlike t) (net.statePort? state) (net'.statePort? state)
  exceptions : ∀ c, Option.Rel (s.CarryAlike t) (net.exceptionPort? c) (net'.exceptionPort? c)
  slots : ∀ slot, s.slot? slot = t.slot? slot

namespace Session

variable {α : Type} {f g : Fragment α}

/-- Tables of the same disjunctions have ports that carry the same. -/
theorem Gathered.carryAlike {κ : Type} [DecidableEq κ] {portsOf : κ → List PortId}
    {keys : List κ} {table table' : Table κ PortId} (h : Gathered portsOf f keys table)
    (h' : Gathered portsOf g keys table') {s t : Simulator α}
    (hs : ∀ {ports q}, f.Joins ports q → s.Disjoins ports q)
    (ht : ∀ {ports q}, g.Joins ports q → t.Disjoins ports q)
    (hports : ∀ k, ∀ q ∈ portsOf k, s.CarryAlike t q q) (k : κ) :
    Option.Rel (s.CarryAlike t) (table.get? k) (table'.get? k) := by
  cases hp : table.get? k with
  | none =>
      cases hq : table'.get? k with
      | none => exact .none
      | some q =>
          obtain ⟨p, hp'⟩ := (h.keys k).mpr ((h'.keys k).mp ⟨q, hq⟩)
          rw [hp] at hp'
          cases hp'
  | some p =>
      obtain ⟨q, hq⟩ := (h'.keys k).mpr ((h.keys k).mp ⟨p, hp⟩)
      rw [hq]
      exact .some ((hs (h.joins hp)).carryAlike (ht (h'.joins hq)) (hports k))

variable [Scalar α]

/-- **Two networks from one session** show the same as long as both run. -/
theorem Branches.undisturbed {request : Request α} {base : Fragment α} {net net' : CompiledNet α}
    (h : Branches request base net net') {program program' : Program α}
    (hp : program.pool.WellFormed) (hp' : program'.pool.WellFormed) {request' : Request α}
    {u u' : Session α} (hrun : Session.compile program request .empty = .ok net u)
    (hrun' : Session.compile program' request' .empty = .ok net' u') {period : α}
    {x : Nat → Stimulus α} {n : Nat} {s₀ t₀ s t : Simulator α}
    (hstart : Simulator.start net.fragment period = .ok s₀)
    (hstart' : Simulator.start net'.fragment period = .ok t₀)
    (hdrive : Simulator.drive x (n + 1) s₀ = .ok s)
    (hdrive' : Simulator.drive x (n + 1) t₀ = .ok t) : net.Undisturbed net' s t := by
  obtain ⟨hf, hstates, hexceptions⟩ := compile_gathers hp hrun
  obtain ⟨hg, hstates', hexceptions'⟩ := compile_gathers hp' hrun'
  obtain ⟨horder, -, -⟩ := Simulator.start_eq_ok hstart
  obtain ⟨horder', -, -⟩ := Simulator.start_eq_ok hstart'
  obtain ⟨hvalues, hslots⟩ := h.shares.drive hf hg hstart hstart'
    (fun b slot hwrites => (h.sinks b slot hwrites).block_lt)
    (h.writers hf hg horder horder') hdrive hdrive'
  obtain ⟨before, -, hfragment, -, -, hcycle, -⟩ := Simulator.drive_last hf hstart hdrive
  obtain ⟨before', -, hfragment', -, -, hcycle', -⟩ := Simulator.drive_last hg hstart' hdrive'
  -- The common part carries the same values, and there are some.
  have hcommon : ∀ q, base.IsOutput q → s.CarryAlike t q q := by
    rintro q ⟨b, blk, hblk, hout⟩
    have hown : (before.feed (x n)).fragment.blocks[b]? = some blk := by
      rw [hfragment]
      exact h.shares.left.block hblk
    obtain ⟨v, hv, -⟩ := hcycle.foreseen (hfragment ▸ hf) hown hout
    exact ⟨v, hv, (hvalues q q (.common ⟨b, blk, hblk, hout⟩ rfl)).symm.trans hv⟩
  have hdisjoins : ∀ {ports q}, net.fragment.Joins ports q → s.Disjoins ports q :=
    fun hq => hcycle.disjoins (hfragment ▸ hf) (hfragment ▸ hq)
  have hdisjoins' : ∀ {ports q}, net'.fragment.Joins ports q → t.Disjoins ports q :=
    fun hq => hcycle'.disjoins (hfragment' ▸ hg) (hfragment' ▸ hq)
  rw [h.signals] at hstates hexceptions
  rw [h.signals'] at hstates' hexceptions'
  refine ⟨?_, ?_, ?_, ?_, hslots⟩
  · rw [← h.root]
    cases hroot : net.root with
    | none => exact .none
    | some q => exact .some (hcommon q (h.rooted q hroot))
  · intro name q hq
    have hbase : base.output? name = some q := by
      unfold Fragment.output? at hq ⊢
      rwa [← h.outputs]
    exact ⟨h.shares.right.outputs hbase,
      hcommon q (h.shares.wellFormed.exposed_isOutput hbase)⟩
  · exact hstates.carryAlike hstates' hdisjoins hdisjoins'
      fun state q hq => hcommon q (h.registered.statePorts state q hq)
  · exact hexceptions.carryAlike hexceptions' hdisjoins hdisjoins'
      fun c q hq => hcommon q (h.registered.exceptionPorts c q hq)

end Session

/-- Observing one expression after the other adds some of them. -/
theorem Request.foldl_observe {α : Type} (more : List ExprId) (request : Request α) :
    ∃ added, more.foldl Request.observe request =
      { request with observed := request.observed ++ added } := by
  induction more generalizing request with
  | nil => exact ⟨[], by simp⟩
  | cons id rest ih =>
      obtain ⟨added, hadded⟩ := ih (request.observe id)
      rw [List.foldl_cons, hadded, Request.observe]
      split
      · exact ⟨added, rfl⟩
      · exact ⟨id :: added, by simp⟩

namespace Compiler

variable {α : Type} [Scalar α]

/-- **Observing does not disturb a network.**  Let a request that is made from
plain expressions be compiled with the rules of the library, and compiled again
with more observed expressions.  As long as the cycles of both networks are
completed, with one period and with the same inputs, sensors and slots set from
outside, the root, the outputs of the first network, the states and the
exceptions carry the same values in both, and slots keep the same. -/
theorem observation_undisturbing (laws : Scalar.ZeroLaws α) {settings : Settings α}
    {pool : Pool α} (hpool : pool.Reachable) {host : Host α} {request : Request α}
    (hrequest : request.Plain pool) {more : List ExprId} {net net' : CompiledNet α}
    (hnet : compile ⟨.standard, settings⟩ pool host request = .ok net)
    (hnet' : compile ⟨.standard, settings⟩ pool host (more.foldl Request.observe request) =
      .ok net')
    {period : α} {x : Nat → Stimulus α} {n : Nat} {s₀ t₀ s t : Simulator α}
    (hstart : Simulator.start net.fragment period = .ok s₀)
    (hstart' : Simulator.start net'.fragment period = .ok t₀)
    (hdrive : Simulator.drive x (n + 1) s₀ = .ok s)
    (hdrive' : Simulator.drive x (n + 1) t₀ = .ok t) : net.Undisturbed net' s t := by
  obtain ⟨added, hadded⟩ := Request.foldl_observe more request
  rw [hadded] at hnet'
  obtain ⟨session, hsession⟩ := compile_eq_ok hnet
  obtain ⟨session', hsession'⟩ := compile_eq_ok hnet'
  obtain ⟨base, hbranches⟩ := Session.compile_branches laws ⟨hpool.wellFormed, rfl⟩ hrequest
    hsession hsession'
  exact hbranches.undisturbed hpool.wellFormed hpool.wellFormed hsession hsession' hstart hstart'
    hdrive hdrive'

/-- A ride along the rails, to a target that is set from outside. -/
def Sample.ride : Building Float (Action Float) :=
  Action.ramp "ride" "x" 0 1 1

/-- A request for an action that observes where it goes. -/
def Sample.rideRequest (a : Action Float) : Request Float :=
  ⟨.action a, {}, [1]⟩

/-- Somebody sets the target, and a speed that the ride does not ask for. -/
def Sample.aiming (_ : Nat) : Stimulus Float :=
  { inputs := [("target", .double 2), ("speed", .double 1)] }

open Simulator in
/-- A request is compiled and runs for three cycles. -/
def Sample.rideRuns (p : Pool Float) (request : Request Float) : Bool :=
  match compile ⟨.standard, .standard⟩ p .offline request with
  | .error _ => false
  | .ok net => match start net.fragment 0.25 with
    | .error _ => false
    | .ok s₀ => match drive Sample.aiming 3 s₀ with
      | .error _ => false
      | .ok _ => true

open Simulator in
theorem Sample.rideRuns_eq_true {p : Pool Float} {request : Request Float}
    (h : Sample.rideRuns p request = true) : ∃ net s₀ s,
      compile ⟨.standard, .standard⟩ p .offline request = .ok net ∧
      start net.fragment 0.25 = .ok s₀ ∧ drive Sample.aiming 3 s₀ = .ok s := by
  unfold Sample.rideRuns at h
  cases hnet : compile ⟨.standard, .standard⟩ p .offline request with
  | error e => simp [hnet] at h
  | ok net =>
      cases hstart : start net.fragment 0.25 with
      | error e => simp [hnet, hstart] at h
      | ok s₀ =>
          cases hdrive : drive Sample.aiming 3 s₀ with
          | error e => simp [hnet, hstart, hdrive] at h
          | ok s => exact ⟨net, s₀, s, rfl, hstart, hdrive⟩

open Simulator in
/-- The ride is not disturbed by looking at its start, at the speed and at the
distance that is left. -/
theorem ride_undisturbed : ∃ a p net net' s₀ t₀ s t, Sample.ride Sample.rails = .ok a p ∧
    compile ⟨.standard, .standard⟩ p .offline (Sample.rideRequest a) = .ok net ∧
    compile ⟨.standard, .standard⟩ p .offline
      ([0, 2, p.size - 1].foldl Request.observe (Sample.rideRequest a)) = .ok net' ∧
    start net.fragment 0.25 = .ok s₀ ∧ start net'.fragment 0.25 = .ok t₀ ∧
    drive Sample.aiming 3 s₀ = .ok s ∧ drive Sample.aiming 3 t₀ = .ok t ∧
    net.Undisturbed net' s t := by
  have hruns : (match Sample.ride Sample.rails with
      | .error _ _ => false
      | .ok a p => a.conditions.isEmpty && (Sample.rideRuns p (Sample.rideRequest a) &&
        Sample.rideRuns p
          ([0, 2, p.size - 1].foldl Request.observe (Sample.rideRequest a)))) = true := by
    decide +kernel
  cases hride : Sample.ride Sample.rails with
  | error e p => simp [hride] at hruns
  | ok a p =>
      simp only [hride, Bool.and_eq_true, List.isEmpty_iff] at hruns
      obtain ⟨hconditions, hfirst, hsecond⟩ := hruns
      obtain ⟨net, s₀, s, hnet, hstart, hdrive⟩ := Sample.rideRuns_eq_true hfirst
      obtain ⟨net', t₀, t, hnet', hstart', hdrive'⟩ := Sample.rideRuns_eq_true hsecond
      have hrails : Sample.rails.Reachable := ⟨true, _, rfl⟩
      have hfollows := Action.ramp_composed "ride" "x" 0 1 (1 : Float) Sample.rails
      rw [show Action.ramp "ride" "x" 0 1 (1 : Float) Sample.rails = .ok a p from hride]
        at hfollows
      have hrequest : (Sample.rideRequest a).Plain p := by
        refine ⟨⟨.ramp hrails (Sample.rails_plain 0 (by decide)) (Sample.rails_plain 1 (by decide))
          hride, ?_⟩, ?_⟩
        · rw [hconditions]
          exact fun id hid => absurd hid List.not_mem_nil
        · intro id hid
          obtain rfl := List.mem_singleton.mp hid
          exact Pool.Plain.extend hrails.wellFormed (hrails.extends_of_follows hfollows)
            (by decide +kernel) (Sample.rails_plain 1 (by decide))
      exact ⟨a, p, net, net', s₀, t₀, s, t, rfl, hnet, hnet', hstart, hstart', hdrive, hdrive',
        observation_undisturbing Double.zeroLaws (hrails.follows hfollows) hrequest hnet hnet'
          hstart hstart' hdrive hdrive'⟩

end Compiler

end SignalNet
