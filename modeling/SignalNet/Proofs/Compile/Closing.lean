import SignalNet.Proofs.Compile.Failures
import SignalNet.Proofs.Compile.Loops
import SignalNet.Proofs.Motion.Plain
import SignalNet.Proofs.Net.Settling

/-!
# Keeping loops closable

A session wires a new block to blocks that are there already, so its network
has no loops until placeholders get their sources.  Which placeholders a port
depends on in a cycle is known from the expressions: the port of an expression
settles from the ports of the placeholders that the expression meets.

The invariant is `Session.Closing`.  Placeholders are early or late.  A port may
settle from early ones, nothing settles from late ones, and a source for an
early placeholder must settle from nothing.  `Session.closing_lawful` says that
every step of a session keeps it.
-/

namespace SignalNet

open Computing Lowering

namespace Session

variable {α : Type}

/-- A port that stands for an open placeholder among some expressions. -/
def PortOf (s : Session α) (ids : List ExprId) (q : PortId) : Prop :=
  ∃ o ∈ s.placeholders, o.expr ∈ ids ∧ s.lowered.get? o.expr = some q

/-- Blocks are fed by blocks before them, except for those of placeholders. -/
def Forward (s : Session α) : Prop :=
  ∀ (b : BlockId) (blk : Block α), s.fragment.blocks[b]? = some blk →
    (∃ o ∈ s.placeholders, blk.inputs = [o.input]) ∨
      ∀ input ∈ blk.inputs, ∃ source port, s.fragment.producer? input = some source ∧
        s.fragment.ports[source]? = some port ∧ port.block < b

/-- In a larger session, only new blocks have to be looked at. -/
theorem Forward.grow {s s' : Session α} (h : s.Forward)
    (hextends : s.fragment.Extends s'.fragment)
    (hplaceholders : ∀ o ∈ s.placeholders, ∃ o' ∈ s'.placeholders, o'.input = o.input)
    (hnew : ∀ {b : BlockId} {blk : Block α}, s'.fragment.blocks[b]? = some blk →
      s.fragment.blocks[b]? = some blk ∨ (∃ o ∈ s'.placeholders, blk.inputs = [o.input]) ∨
        ∀ input ∈ blk.inputs, ∃ source port, s'.fragment.producer? input = some source ∧
          s'.fragment.ports[source]? = some port ∧ port.block < b) : s'.Forward := by
  intro b blk hb
  rcases hnew hb with hold | hnew
  · rcases h b blk hold with ⟨o, ho, hinputs⟩ | hfed
    · obtain ⟨o', ho', hsame⟩ := hplaceholders o ho
      exact Or.inl ⟨o', ho', by rw [hinputs, hsame]⟩
    · refine Or.inr fun input hinput => ?_
      obtain ⟨source, port, hsource, hport, hlt⟩ := hfed input hinput
      exact ⟨source, port, hextends.producer? hsource, hextends.port hport, hlt⟩
  · exact hnew

/-- A port that is there belongs to a block before the next one. -/
theorem block_lt {f : Fragment α} (hf : f.WellFormed) {q : PortId} {port : Port}
    (hport : f.ports[q]? = some port) : port.block < f.blocks.length := by
  obtain ⟨blk, hblk, -⟩ := hf.owner hport
  exact (List.getElem?_eq_some_iff.mp hblk).1

/-- A block that is added and wired stands behind what feeds it. -/
theorem Forward.added {s : Session α} (h : s.Forward) (hf : s.fragment.WellFormed)
    {f : Fragment α} {primitive : Primitive α} {sources : List PortId} {kinds : List Kind}
    {kind : Kind} {q : PortId}
    (hadded : Fragment.Added s.fragment f primitive sources kinds kind q) :
    Forward { s with fragment := f } := by
  refine h.grow hadded.extends (fun o ho => ⟨o, ho, rfl⟩) ?_
  intro b blk hb
  rcases hadded.block_cases hb with hold | ⟨rfl, rfl⟩
  · exact Or.inl hold
  · refine Or.inr (Or.inr fun input hinput => ?_)
    obtain ⟨source, hmem, hsource⟩ := forall₂_exists_of_mem hadded.fed hinput
    obtain ⟨kind', -, hkind⟩ := forall₂_exists_of_mem
      (mapM_ok_iff_forall₂.mp hadded.sourceKinds) hmem
    obtain ⟨port, hport, -⟩ := Fragment.kindOf_eq_ok.mp hkind
    exact ⟨source, port, hsource, hadded.extends.port hport, block_lt hf hport⟩

variable [Scalar α] {program : Program α} {early late : List ExprId} {s s' : Session α}

/-- Wired sessions whose blocks are fed forward; the signals stay. -/
def Advances (program : Program α) (s s' : Session α) : Prop :=
  Wired program s → s.Forward → s'.Forward ∧ s'.fragment.signals = s.fragment.signals

/-- Steps that keep a session wired and let it advance. -/
theorem stepwise_advances (program : Program α) :
    Stepwise fun s s' => Steps program [] s s' ∧ Advances program s s' where
  refl s := ⟨fun h => ⟨h, Grows.refl s⟩, fun _ h => ⟨h, rfl⟩⟩
  trans := by
    rintro s₁ s₂ s₃ ⟨hsteps₁, h₁⟩ ⟨hsteps₂, h₂⟩
    refine ⟨hsteps₁.trans hsteps₂, fun hwired hforward => ?_⟩
    obtain ⟨hforward₂, hsame₂⟩ := h₁ hwired hforward
    obtain ⟨hforward₃, hsame₃⟩ := h₂ (hsteps₁ hwired).1 hforward₂
    exact ⟨hforward₃, hsame₃.trans hsame₂⟩
  add := by
    intro primitive inputs kind s s' q hrun
    refine ⟨(stepwise_steps program []).add _ _ _ _ _ _ hrun, fun h hforward => ?_⟩
    obtain ⟨f, kinds, hadded, rfl⟩ := add_added h.wellFormed hrun
    exact ⟨hforward.added h.wellFormed hadded, hadded.signals⟩
  constPort := by
    intro v s s' q hrun
    refine ⟨steps_constPort hrun, fun h hforward => ?_⟩
    rcases constPort_cases h.wellFormed hrun with ⟨-, rfl⟩ | ⟨-, f, hadded, rfl⟩
    · exact ⟨hforward, rfl⟩
    · exact ⟨hforward.added h.wellFormed hadded, hadded.signals⟩

theorem LoweredBy.advances {id : ExprId} {n : Node α} {inputs : List PortId} {q : PortId}
    (hn : program.pool.get? id = some n) (h : LoweredBy program id n inputs s q s') :
    Advances program s s' := by
  cases h with
  | constant _ hrun => exact ((stepwise_advances program).constPort _ _ _ _ hrun).2
  | parameter _ _ _ hrun => exact ((stepwise_advances program).constPort _ _ _ _ hrun).2
  | relation _ hrun => exact ((stepwise_advances program).lowerRelation _ _ _ _ _ _ hrun).2
  | placeholder hform hrun =>
      obtain ⟨hfits, -, rfl⟩ := openPlaceholder_eq_ok hn hform hrun
      intro hwired hforward
      refine ⟨hforward.grow Fragment.withBlock_extends
        (fun o ho => ⟨o, List.mem_append_left _ ho, rfl⟩) ?_, rfl⟩
      intro b blk hb
      rcases Fragment.withBlock_block_cases hb with hold | ⟨-, rfl⟩
      · exact Or.inl hold
      · exact Or.inr (Or.inl ⟨_, List.mem_append_right _ List.mem_cons_self, rfl⟩)
  | block _ hrun => exact ((stepwise_advances program).add _ _ _ _ _ _ hrun).2

/-! ### Ports that settle -/

variable {Given : PortId → Prop} {q : PortId}

theorem add_settles (h : Wired program s) {primitive : Primitive α} {inputs : List PortId}
    {kind : Kind} (hinputs : ∀ source ∈ inputs, s.fragment.Settles Given source)
    (hrun : add primitive inputs kind s = .ok q s') : s'.fragment.Settles Given q := by
  obtain ⟨f, kinds, hadded, rfl⟩ := add_added h.wellFormed hrun
  refine .block hadded.makes fun source hsource => ?_
  exact (hinputs source hsource).extend hadded.extends fun _ hq => hq

/-- Constants settle from nothing. -/
theorem Wired.settles_constant (h : Wired program s) {c : Value α}
    (hq : s.constants.get? c = some q) : s.fragment.Settles Given q := by
  obtain ⟨v, -, hmakes⟩ := h.constants hq
  exact .block hmakes (by simp)

theorem constPort_settles (h : Wired program s) {v : Value α}
    (hrun : constPort v s = .ok q s') : s'.fragment.Settles Given q := by
  obtain ⟨h', -⟩ := (stepwise_steps program []).constPort _ _ _ _ hrun h
  exact h'.settles_constant (constPort_entered h.wellFormed hrun)

theorem lowerHop_settles (h : Wired program s) {host : Host α} {hop : Hop α}
    (hrun : lowerHop host hop s = .ok q s') : s'.fragment.Settles Given q := by
  cases hop with
  | fixed pose => exact constPort_settles h hrun
  | measured sensor device inverted =>
      obtain ⟨_, s₁, hcheck, hafter⟩ := bind_eq_ok.mp hrun
      obtain rfl := checkDevice_eq_ok hcheck
      obtain ⟨measured, s₂, hsensor, hafter⟩ := bind_eq_ok.mp hafter
      have hmeasured : s₂.fragment.Settles Given measured := add_settles h (by simp) hsensor
      obtain ⟨h₂, -⟩ := (stepwise_steps program []).add _ _ _ _ _ _ hsensor h
      cases inverted with
      | true =>
          rw [if_pos rfl] at hafter
          refine add_settles h₂ ?_ hafter
          intro source hsource
          exact List.mem_singleton.mp hsource ▸ hmeasured
      | false =>
          rw [if_neg Bool.false_ne_true] at hafter
          obtain ⟨rfl, rfl⟩ := pure_eq_ok.mp hafter
          exact hmeasured

theorem lowerHops_settles {host : Host α} {hops : List (Hop α)} (h : Wired program s)
    {before : PortId} (hbefore : s.fragment.Settles Given before)
    (hrun : lowerHops host before hops s = .ok q s') : s'.fragment.Settles Given q := by
  induction hops generalizing s before with
  | nil =>
      obtain ⟨rfl, rfl⟩ := pure_eq_ok.mp hrun
      exact hbefore
  | cons hop rest ih =>
      obtain ⟨port, s₁, hhop, hafter⟩ := bind_eq_ok.mp hrun
      obtain ⟨h₁, hgrows₁⟩ := (stepwise_steps program []).lowerHop _ _ _ _ _ hhop h
      have hport : s₁.fragment.Settles Given port := lowerHop_settles h hhop
      obtain ⟨product, s₂, hadd, hafter⟩ := bind_eq_ok.mp hafter
      obtain ⟨h₂, -⟩ := (stepwise_steps program []).add _ _ _ _ _ _ hadd h₁
      refine ih h₂ (add_settles h₁ ?_ hadd) hafter
      intro source hsource
      rcases List.mem_pair.mp hsource with rfl | rfl
      · exact hbefore.extend hgrows₁.fragment fun _ hq => hq
      · exact hport

/-- Relations settle from nothing: they are made of constants and sensors. -/
theorem lowerRelation_settles (h : Wired program s) {host : Host α} {source target : String}
    (hrun : lowerRelation host source target s = .ok q s') : s'.fragment.Settles Given q := by
  rcases lowerRelation_eq_ok hrun with ⟨-, hconst⟩ | ⟨hop, rest, first, s₁, -, hhop, hrest⟩
  · exact constPort_settles h hconst
  · obtain ⟨h₁, -⟩ := (stepwise_steps program []).lowerHop _ _ _ _ _ hhop h
    exact lowerHops_settles h₁ (lowerHop_settles h hhop) hrest

/-! ### The invariant -/

theorem PortOf.grow {targets ids : List ExprId} (h : s.PortOf ids q) (hs : s.Grows targets s') :
    s'.PortOf ids q := by
  obtain ⟨o, ho, hid, hq⟩ := h
  obtain ⟨o', ho', hexpr⟩ := hs.placeholders o ho
  rw [← hexpr] at hid hq
  exact ⟨o', ho', hid, hs.lowered hq⟩

/-- The value of a source is known from the placeholders among some
expressions. -/
def Timed (program : Program α) (early late ids : List ExprId) (s : Session α) : Source α → Prop
  | .expression producer => program.pool.Confined (early ++ late) producer ∧
      program.pool.MeetsOnly ids producer
  | .constant _ => True
  | .port q => s.fragment.Settles (s.PortOf ids) q

theorem Timed.grow {targets ids : List ExprId} {source : Source α}
    (h : Timed program early late ids s source) (hs : s.Grows targets s') :
    Timed program early late ids s' source := by
  cases source with
  | expression producer => exact h
  | constant v => trivial
  | port q => exact Fragment.Settles.extend h hs.fragment fun _ hq => hq.grow hs

/-- A source may be collected: it is known from early placeholders, and from
none if it is for an early placeholder itself. -/
structure MayClose (program : Program α) (early late : List ExprId) (s : Session α)
    (r : Resolver α) : Prop where
  targets : ∀ x ∈ r.targets, x ∈ early ++ late
  timed : Timed program early late early s r.source
  first : ∀ x ∈ r.targets, x ∈ early → Timed program early late [] s r.source

/-- What a session keeps so that its loops can be closed. -/
structure Closing (program : Program α) (early late : List ExprId) (s : Session α) : Prop where
  wired : Wired program s
  forward : s.Forward
  confined : ∀ {id : ExprId} {q : PortId}, s.lowered.get? id = some q →
    program.pool.Confined (early ++ late) id
  settles : ∀ {id : ExprId} {q : PortId}, s.lowered.get? id = some q → ∀ ids,
    program.pool.MeetsOnly ids id → s.fragment.Settles (s.PortOf ids) q
  sources : ∀ r ∈ s.resolvers, MayClose program early late s r
  signals : s.fragment.signals.Every (s.fragment.Settles (s.PortOf early))

theorem closing_empty : Closing program early late (empty : Session α) where
  wired := wired_empty program
  forward := by
    intro b blk hb
    simp [empty] at hb
  confined h := by simp [empty, Table.get?] at h
  settles h := by simp [empty, Table.get?] at h
  sources := by simp [empty]
  signals := Registry.every_empty

/-- What a larger session has to account for, if nothing has been entered. -/
theorem Closing.grow {targets : List ExprId} (h : Closing program early late s)
    (hs : s.Grows targets s') (hwired : Wired program s') (hforward : s'.Forward)
    (hlowered : s'.lowered = s.lowered)
    (hsources : ∀ r ∈ s'.resolvers, r ∈ s.resolvers ∨ MayClose program early late s' r)
    (hsignals : s'.fragment.signals.Every (s'.fragment.Settles (s'.PortOf early))) :
    Closing program early late s' where
  wired := hwired
  forward := hforward
  confined := by
    intro id q hq
    rw [hlowered] at hq
    exact h.confined hq
  settles := by
    intro id q hq ids hids
    rw [hlowered] at hq
    exact (h.settles hq ids hids).extend hs.fragment fun _ hq => hq.grow hs
  sources := by
    intro r hr
    rcases hsources r hr with hold | hnew
    · obtain ⟨htargets, htimed, hfirst⟩ := h.sources r hold
      exact ⟨htargets, htimed.grow hs, fun x hx hearly => (hfirst x hx hearly).grow hs⟩
    · exact hnew
  signals := hsignals

theorem Closing.signals_grow {targets : List ExprId} (h : Closing program early late s)
    (hs : s.Grows targets s') (hsame : s'.fragment.signals = s.fragment.signals) :
    s'.fragment.signals.Every (s'.fragment.Settles (s'.PortOf early)) := by
  rw [hsame]
  exact h.signals.mono fun q hq => hq.extend hs.fragment fun _ hp => hp.grow hs

/-- A source that is timed has a port that settles. -/
theorem Closing.sourceAt (h : Closing program early late s) {ids : List ExprId}
    {source : Source α} (htimed : Timed program early late ids s source)
    (hq : s.SourceAt q source) : s.fragment.Settles (s.PortOf ids) q := by
  cases source with
  | expression producer => exact h.settles hq ids htimed.2
  | constant v => exact h.wired.settles_constant hq
  | port p => exact hq ▸ htimed

/-! ### Expressions -/

/-- **The step of lowering**: the port of a node settles from what the node
meets. -/
theorem Closing.lowerStep (hprogram : program.Regular) (h : Closing program early late s)
    {id : ExprId} {n : Node α} {inputs : List PortId}
    (hid : program.pool.Confined (early ++ late) id)
    (hn : program.pool.get? id = some n) (hfresh : s.lowered.get? id = none)
    (hinputs : List.Forall₂ (fun d q => s.lowered.get? d = some q) n.dependencies inputs)
    (hby : LoweredBy program id n inputs s q s') :
    Closing program early late (s'.entered id q) := by
  obtain ⟨hwired, hgrows⟩ : Wired program (s'.entered id q) ∧ s.Grows [] (s'.entered id q) :=
    hby.wired h.wired hn (Program.founded_of_rules hprogram.pool hprogram.rules id) hfresh hinputs
  obtain ⟨hforward, hsignals⟩ := hby.advances hn h.wired h.forward
  have hopens := hby.opens hn
  -- An entry is the new one or an old one.
  have hentry : ∀ {j : ExprId} {r : PortId}, (s'.entered id q).lowered.get? j = some r →
      j = id ∧ r = q ∨ s.lowered.get? j = some r := by
    intro j r hj
    rcases Table.get?_insert_cases hj with ⟨hjid, hqr⟩ | hold
    · exact Or.inl ⟨hjid, hqr.symm⟩
    · rw [← hopens.lowered]
      exact Or.inr hold
  have hnew : ∀ ids, program.pool.MeetsOnly ids id →
      s'.fragment.Settles ((s'.entered id q).PortOf ids) q := by
    intro ids hids
    cases hby with
    | constant _ hrun => exact constPort_settles h.wired hrun
    | parameter _ _ _ hrun => exact constPort_settles h.wired hrun
    | relation _ hrun => exact lowerRelation_settles h.wired hrun
    | placeholder hform hrun =>
        obtain ⟨-, -, rfl⟩ := openPlaceholder_eq_ok hn hform hrun
        exact .given ⟨_, List.mem_append_right _ List.mem_cons_self, hids (.placeholder hn hform),
          Table.get?_insert_self _ _ _⟩
    | @block primitive hform hrun =>
        obtain ⟨f, kinds, hadded, rfl⟩ := add_added h.wired.wellFormed hrun
        by_cases hdelay : primitive.isDelay = true
        · exact .delay hadded.makes hdelay
        · -- What is no delay meets what its operands meet.
          have hnow : ∀ y initial, n.form ≠ .pre y initial := by
            rintro y initial hpre
            rw [hpre] at hform
            cases hform
            exact hdelay rfl
          refine .block hadded.makes fun source hsource => ?_
          obtain ⟨d, hd, hentered⟩ := forall₂_exists_of_mem hinputs.flip hsource
          refine (h.settles hentered ids ?_).extend hgrows.fragment fun _ hp => hp.grow hgrows
          exact fun hmeets => hids (.operand hn hnow hd hmeets)
  refine ⟨hwired, hforward, ?_, ?_, ?_, h.signals_grow hgrows hsignals⟩
  · intro j r hj
    rcases hentry hj with ⟨rfl, -⟩ | hold
    · exact hid
    · exact h.confined hold
  · intro j r hj ids hids
    rcases hentry hj with ⟨rfl, rfl⟩ | hold
    · exact hnew ids hids
    · exact (h.settles hold ids hids).extend hgrows.fragment fun _ hp => hp.grow hgrows
  · intro r hr
    have hr' : r ∈ s.resolvers := hopens.resolvers ▸ hr
    obtain ⟨htargets, htimed, hfirst⟩ := h.sources r hr'
    exact ⟨htargets, htimed.grow hgrows, fun x hx hearly => (hfirst x hx hearly).grow hgrows⟩

/-- **Lowering an expression** keeps the invariant.  Placeholders that are
opened on the way wait for their sources. -/
theorem Closing.lower (hprogram : program.Regular) (h : Closing program early late s)
    {id : ExprId} (hid : program.pool.Confined (early ++ late) id)
    (hrun : Session.lower program id s = .ok q s') :
    Closing program early late s' ∧ s'.lowered.get? id = some q ∧ s.Awaits s' := by
  have hout : Outcome (fun t => Closing program early late t ∧ s.Awaits t) id s q s' := by
    refine lowerWithin_induct (P := program.pool.Confined (early ++ late)) hprogram.pool
      (.of_rules hprogram.rules) (fun hid hn d hd => hid.operand hn hd) ?_ hid
      ⟨h, .refl s⟩ hrun
    rintro j n inputs s₁ s₂ r hj hn hfresh ⟨hs₁, hawaits⟩ hinputs hby -
    obtain ⟨hresolvers, hplaceholders⟩ := hawaits.trans (hby.opens hn).toAwaits
    exact ⟨hs₁.lowerStep hprogram hj hn hfresh hinputs hby, hresolvers, hplaceholders⟩
  exact ⟨hout.holds.1, hout.entry, hout.holds.2⟩

/-! ### The steps of a session -/

/-- Steps that enter nothing and collect nothing. -/
theorem Closing.advance (h : Closing program early late s)
    (hsteps : Steps program (early ++ late) s s') (hadvances : Advances program s s')
    (hopens : s.Opens s') : Closing program early late s' ∧ s.Grows (early ++ late) s' := by
  obtain ⟨hwired, hgrows⟩ := hsteps h.wired
  obtain ⟨hforward, hsame⟩ := hadvances h.wired h.forward
  refine ⟨h.grow hgrows hwired hforward hopens.lowered ?_ (h.signals_grow hgrows hsame), hgrows⟩
  intro r hr
  rw [hopens.resolvers] at hr
  exact Or.inl hr

/-- A sink is fed by a port that is there already. -/
theorem Closing.storePersisted (hprogram : program.Regular) (h : Closing program early late s)
    {handle : Nat} (hroot : ∀ source, program.pool.persistSource handle = .ok source →
      program.pool.Confined (early ++ late) source) {u : Unit}
    (hrun : Session.storePersisted program handle s = .ok u s') :
    Closing program early late s' ∧ s.Grows (early ++ late) s' := by
  obtain ⟨hwired, hgrows⟩ :=
    (closed_steps program (early ++ late)).storePersisted _ _ _ _ hrun h.wired
  obtain ⟨slot, source, value, s₁, kind, hsource, hlower, -, hports, -, rfl⟩ :=
    storePersisted_eq_ok hrun
  obtain ⟨h₁, -⟩ := h.lower hprogram (hroot source hsource) hlower
  have hextends : s₁.fragment.Extends ((s₁.fragment.withBlock (.store slot) [kind] none).withWires
      [⟨value, s₁.fragment.ports.length⟩]) :=
    Fragment.withBlock_extends.trans (Fragment.withWires_extends _ _)
  have hgrows₁ : s₁.Grows (early ++ late) { s₁ with
      fragment := (s₁.fragment.withBlock (.store slot) [kind] none).withWires
        [⟨value, s₁.fragment.ports.length⟩] } :=
    (extends_withFragment hextends).grows List.prefix_rfl rfl
  refine ⟨h₁.grow hgrows₁ hwired ?_ rfl (fun r hr => Or.inl hr) (h₁.signals_grow hgrows₁ rfl),
    hgrows⟩
  refine h₁.forward.grow hextends (fun o ho => ⟨o, ho, rfl⟩) ?_
  intro b blk hb
  rcases Fragment.withBlock_block_cases hb with hold | ⟨rfl, rfl⟩
  · exact Or.inl hold
  · refine Or.inr (Or.inr fun input hinput => ?_)
    obtain rfl : input = s₁.fragment.ports.length := by simpa using hinput
    obtain ⟨port, _, hport, -, hout, -⟩ := hports
    -- The sink has no output, so what feeds it was there before.
    have hold : s₁.fragment.ports[value]? = some port := by
      rcases Fragment.withBlock_port_cases hport with hold | ⟨i, kind', -, -, rfl⟩ | ⟨kind', hnone, -⟩
      · exact hold
      · cases hout
      · cases hnone
    refine ⟨value, port, ?_, hport, block_lt h₁.wired.wellFormed hold⟩
    exact hwired.wellFormed.producer?_eq_some_iff.mpr (List.mem_append_right _ List.mem_cons_self)

/-- The discipline that keeps loops closable. -/
def closing (program : Program α) (early late : List ExprId) : Discipline α where
  Holds := Closing program early late
  Grows := Grows (early ++ late)
  Port s := s.fragment.Settles (s.PortOf early)
  Root := program.pool.Tied early late
  Source := MayClose program early late
  Error := CompileError.Harmless

/-- **Every step of a session** keeps loops closable. -/
theorem closing_lawful (hprogram : program.Regular) :
    (closing program early late).Lawful program where
  refl := Grows.refl
  trans h₁ h₂ := h₁.trans h₂
  mono hs hq := hq.extend hs.fragment fun _ hp => hp.grow hs
  error he := he
  signals h := h.signals
  add := by
    intro s inputs primitive kind hinputs h
    refine ⟨?_, fun e s' hrun => (add_fails _ _ _ _ _ _ hrun).1⟩
    intro q s' hrun
    obtain ⟨hclosing, hgrows⟩ := h.advance ((stepwise_steps program _).add _ _ _ _ _ _ hrun)
      ((stepwise_advances program).add _ _ _ _ _ _ hrun).2 (stepwise_opens.add _ _ _ _ _ _ hrun)
    have hsettles : s'.fragment.Settles (s.PortOf early) q := add_settles h.wired hinputs hrun
    exact ⟨hclosing, hgrows, hsettles.extend (Fragment.Extends.refl _) fun _ hp => hp.grow hgrows⟩
  constPort := by
    intro s v h
    refine ⟨?_, fun e s' hrun => (constPort_fails _ _ _ _ hrun).1⟩
    intro q s' hrun
    obtain ⟨hclosing, hgrows⟩ := h.advance ((stepwise_steps program _).constPort _ _ _ _ hrun)
      ((stepwise_advances program).constPort _ _ _ _ hrun).2
      (stepwise_opens.constPort _ _ _ _ hrun)
    exact ⟨hclosing, hgrows, constPort_settles h.wired hrun⟩
  lower := by
    intro s id hid h
    refine ⟨?_, fun e s' hrun => lower_fails program _ _ _ _ hrun⟩
    intro q s' hrun
    obtain ⟨hclosing, hentry, -⟩ := h.lower hprogram hid.confined hrun
    obtain ⟨-, hgrows⟩ := (closed_steps program (early ++ late)).lower _ _ _ _ hrun h.wired
    exact ⟨hclosing, hgrows, hclosing.settles hentry early hid.meets⟩
  addResolver := by
    intro s r hr h
    refine ⟨?_, fun e s' hrun => fails_modify _ _ _ _ hrun⟩
    intro u s' hrun
    obtain ⟨hwired, hgrows⟩ := (closed_steps program (early ++ late)).addResolver _ hr.targets _ _ _ hrun
      h.wired
    obtain rfl := modify_eq_ok.mp hrun
    refine ⟨h.grow hgrows hwired h.forward rfl ?_ (h.signals_grow hgrows rfl), hgrows, trivial⟩
    intro r' hr'
    rcases List.mem_append.mp hr' with hold | hnew
    · exact Or.inl hold
    · obtain rfl := List.mem_singleton.mp hnew
      exact Or.inr ⟨hr.targets, hr.timed.grow hgrows,
        fun x hx hearly => (hr.first x hx hearly).grow hgrows⟩
  register := by
    intro s q signal hq h
    refine ⟨?_, fun e s' hrun => (fails_wire (fails_modify _) _ _ _ hrun).1⟩
    intro u s' hrun
    obtain ⟨hwired, hgrows⟩ : Wired program s' ∧ s.Grows (early ++ late) s' :=
      steps_register _ _ _ _ _ hrun h.wired
    obtain ⟨f, hcall, rfl⟩ := wire_eq_ok.mp hrun
    obtain rfl := Fragment.register_eq_ok hcall
    refine ⟨h.grow hgrows hwired h.forward rfl (fun r hr => Or.inl hr) ?_, hgrows, trivial⟩
    refine (h.signals.mono fun p hp => ?_).register ?_ signal
    · exact hp.extend hgrows.fragment fun _ hx => hx.grow hgrows
    · exact Fragment.Settles.extend hq hgrows.fragment fun _ hx => hx.grow hgrows
  expose := by
    intro s name q h
    refine ⟨?_, fun e s' hrun => (fails_wire (Fragment.expose_fails _ _) _ _ _ hrun).1⟩
    intro u s' hrun
    obtain ⟨hwired, hgrows⟩ := (closed_steps program (early ++ late)).expose _ _ _ _ _ hrun h.wired
    obtain ⟨f, hcall, rfl⟩ := wire_eq_ok.mp hrun
    obtain ⟨-, hextends, -, -, hblocks, -, -, hsignals⟩ := Fragment.expose_eq_ok hcall
    refine ⟨h.grow hgrows hwired ?_ rfl (fun r hr => Or.inl hr) (h.signals_grow hgrows hsignals),
      hgrows, trivial⟩
    refine h.forward.grow hextends (fun o ho => ⟨o, ho, rfl⟩) fun hb => Or.inl ?_
    rwa [← hblocks]
  storePersisted := by
    intro s handle hroot h
    refine ⟨?_, fun e s' hrun => storePersisted_fails program _ _ _ _ hrun⟩
    intro u s' hrun
    obtain ⟨hclosing, hgrows⟩ :=
      h.storePersisted hprogram (fun source hsource => (hroot source hsource).confined) hrun
    exact ⟨hclosing, hgrows, trivial⟩

end Session

end SignalNet
