import SignalNet.Proofs.Compile.Accepts

/-!
# Sessions stay typed

While a request is compiled with the rules of the library, the session is
*typed* (`Session.Typed`): every block accepts the kinds of its ports, the
ports of expressions and of constants are outputs of their kinds, and every
port that stands for a state or an exception is a boolean.

Here this is said for everything that does not depend on actions:

* `Session.Typed.lower` lowers an expression, by the induction of
  `Session.lowerWithin_induct`;
* `Session.Typed.finish` resolves the placeholders, round by round.

A result of these says that the session is typed afterwards, and that the
fragment has grown (`Session.Leads`).
-/

namespace SignalNet

variable {α : Type} [Scalar α]

/-- A program with the rules of the library, on a well-formed pool. -/
structure Program.Regular (program : Program α) : Prop where
  pool : program.pool.WellFormed
  rules : program.rules = .standard

namespace Session

open Computing Lowering

/-- Blocks accept the kinds of their ports, and the session knows the kinds of
the ports that it remembers. -/
structure Typed (program : Program α) (s : Session α) : Prop where
  wellFormed : s.fragment.WellFormed
  blocks : s.fragment.Typed
  entries : ∀ {id : ExprId} {q : PortId}, s.lowered.get? id = some q →
    ∃ kind, program.pool.kindOf id = .ok kind ∧ s.fragment.Offers q kind
  constants : ∀ {v : Value α} {q : PortId}, s.constants.get? v = some q →
    s.fragment.Offers q v.kind
  signals : s.fragment.Signals s.fragment.signals

theorem typed_empty (program : Program α) : Typed program (empty : Session α) where
  wellFormed := Fragment.wellFormed_empty
  blocks h := by simp [empty] at h
  entries h := by simp [empty, Table.get?] at h
  constants h := by simp [empty, Table.get?] at h
  signals := Fragment.signals_empty _

/-- A typed session has come of another one, whose fragment has grown. -/
structure Leads (program : Program α) (s s' : Session α) : Prop where
  typed : Typed program s'
  «extends» : s.fragment.Extends s'.fragment

theorem Leads.trans {program : Program α} {s₁ s₂ s₃ : Session α} (h₁ : Leads program s₁ s₂)
    (h₂ : Leads program s₂ s₃) : Leads program s₁ s₃ :=
  ⟨h₂.typed, h₁.extends.trans h₂.extends⟩

variable {program : Program α} {s s' : Session α}

theorem Typed.leads (h : Typed program s) : Leads program s s :=
  ⟨h, Fragment.Extends.refl _⟩

/-! ### Blocks -/

/-- A larger fragment that is typed makes a typed session. -/
theorem Typed.grow (h : Typed program s) {f : Fragment α} (hextends : s.fragment.Extends f)
    (hwell : f.WellFormed) (hblocks : f.Typed) (hsignals : f.signals = s.fragment.signals) :
    Leads program s { s with fragment := f } := by
  refine ⟨⟨hwell, hblocks, ?_, ?_, ?_⟩, hextends⟩
  · intro id q hq
    obtain ⟨kind, hkind, hoffers⟩ := h.entries hq
    exact ⟨kind, hkind, hoffers.extend hextends⟩
  · intro v q hq
    exact (h.constants hq).extend hextends
  · show f.Signals f.signals
    rw [hsignals]
    exact h.signals.extend hextends

theorem Typed.added (h : Typed program s) {f : Fragment α} {primitive : Primitive α}
    {inputs : List PortId} {kinds : List Kind} {kind : Kind} {q : PortId}
    (hadded : Fragment.Added s.fragment f primitive inputs kinds kind q)
    (haccepts : primitive.Accepts kinds kind) : Leads program s { s with fragment := f } :=
  h.grow hadded.extends hadded.valid (hadded.typed h.blocks haccepts) hadded.signals

/-- A block that accepts the kinds of its sources offers its own kind. -/
theorem Typed.add (h : Typed program s) {primitive : Primitive α} {inputs : List PortId}
    {kind : Kind} {q : PortId} (hrun : Session.add primitive inputs kind s = .ok q s')
    {kinds : List Kind} (hinputs : List.Forall₂ s.fragment.Offers inputs kinds)
    (haccepts : primitive.Accepts kinds kind) :
    Leads program s s' ∧ s'.fragment.Offers q kind := by
  obtain ⟨f, kinds', hadded, rfl⟩ := add_added h.wellFormed hrun
  have hkinds : kinds' = kinds :=
    List.right_unique_forall₂' (fun _ _ _ h h' => Except.ok.inj (h.symm.trans h'))
      (mapM_ok_iff_forall₂.mp hadded.sourceKinds) (hinputs.imp fun _ _ => Fragment.Offers.kindOf)
  subst hkinds
  exact ⟨h.added hadded haccepts, hadded.offers⟩

/-- A constant offers its kind. -/
theorem Typed.constPort (h : Typed program s) {v : Value α} {q : PortId}
    (hrun : Session.constPort v s = .ok q s') :
    Leads program s s' ∧ s'.fragment.Offers q v.kind := by
  have hkind : v.canonical.kind = v.kind := Value.kind_map _ v
  rcases constPort_cases h.wellFormed hrun with ⟨hfound, rfl⟩ | ⟨-, f, hadded, rfl⟩
  · rw [← hkind]
    exact ⟨h.leads, h.constants hfound⟩
  · have hgrown := h.added hadded ⟨rfl, rfl⟩
    refine ⟨⟨⟨hgrown.typed.wellFormed, hgrown.typed.blocks, hgrown.typed.entries, ?_,
      hgrown.typed.signals⟩, hgrown.extends⟩, hadded.offers⟩
    intro w r hr
    rcases Table.get?_insert_cases hr with ⟨rfl, rfl⟩ | hold
    · rw [hkind]
      exact hadded.offers
    · exact hgrown.typed.constants hold

/-- Booleans are joined to a boolean. -/
theorem Typed.join (h : Typed program s) {primitive : Primitive α}
    (hjoins : primitive = .anyOf ∨ primitive = .allOf) {ports : List PortId}
    (hports : ∀ r ∈ ports, s.fragment.Offers r .boolean) {q : PortId}
    (hrun : Session.add primitive ports .boolean s = .ok q s') :
    Leads program s s' ∧ s'.fragment.Offers q .boolean := by
  have hinputs : List.Forall₂ s.fragment.Offers ports (ports.map fun _ => Kind.boolean) :=
    List.forall₂_map_right_iff.mpr (List.forall₂_same.mpr hports)
  have haccepts : primitive.Accepts (ports.map fun _ => Kind.boolean) .boolean := by
    rcases hjoins with rfl | rfl <;> simp [Primitive.Accepts]
  exact h.add hrun hinputs haccepts

theorem Typed.anyOf (h : Typed program s) {ports : List PortId}
    (hports : ∀ r ∈ ports, s.fragment.Offers r .boolean) {q : PortId}
    (hrun : Session.anyOf ports s = .ok q s') :
    Leads program s s' ∧ s'.fragment.Offers q .boolean := by
  match ports, hports, hrun with
  | [], _, hrun => exact h.constPort hrun
  | [port], hports, hrun =>
      obtain ⟨rfl, rfl⟩ := pure_eq_ok.mp hrun
      exact ⟨h.leads, hports port (by simp)⟩
  | first :: second :: rest, hports, hrun => exact h.join (Or.inl rfl) hports hrun

theorem Typed.allOf (h : Typed program s) {ports : List PortId}
    (hports : ∀ r ∈ ports, s.fragment.Offers r .boolean) {q : PortId}
    (hrun : Session.allOf ports s = .ok q s') :
    Leads program s s' ∧ s'.fragment.Offers q .boolean := by
  match ports, hports, hrun with
  | [], _, hrun => exact h.constPort hrun
  | [port], hports, hrun =>
      obtain ⟨rfl, rfl⟩ := pure_eq_ok.mp hrun
      exact ⟨h.leads, hports port (by simp)⟩
  | first :: second :: rest, hports, hrun => exact h.join (Or.inr rfl) hports hrun

theorem Typed.negate (h : Typed program s) {port : PortId}
    (hport : s.fragment.Offers port .boolean) {q : PortId}
    (hrun : Session.negate port s = .ok q s') :
    Leads program s s' ∧ s'.fragment.Offers q .boolean :=
  h.add hrun (.cons hport .nil) ⟨_, rfl, rfl⟩

theorem Typed.timer (h : Typed program s) {port : PortId}
    (hport : s.fragment.Offers port .boolean) {duration : α} {q : PortId}
    (hrun : Session.timer port duration s = .ok q s') :
    Leads program s s' ∧ s'.fragment.Offers q .boolean :=
  h.add hrun (.cons hport .nil) ⟨rfl, rfl⟩

/-- Whether one number is at most another one. -/
theorem Typed.lessEq (h : Typed program s) {x y : PortId} (hx : s.fragment.Offers x .double)
    (hy : s.fragment.Offers y .double) {q : PortId}
    (hrun : Session.add (.compare .lessEq) [x, y] .boolean s = .ok q s') :
    Leads program s s' ∧ s'.fragment.Offers q .boolean :=
  h.add hrun (.cons hx (.cons hy .nil)) ⟨_, _, rfl, rfl⟩

omit [Scalar α] in
/-- A port that is expected to be a boolean is one. -/
theorem expectBoolean_eq_ok {port : PortId} {what : String} {u : Unit}
    (h : expectBoolean port what s = .ok u s') :
    s' = s ∧ s.fragment.kindOf port = .ok .boolean := by
  obtain ⟨_, _, hget, h⟩ := bind_eq_ok.mp h
  obtain ⟨rfl, rfl⟩ := get_eq_ok.mp hget
  obtain ⟨kind, _, hlookup, h⟩ := bind_eq_ok.mp h
  obtain ⟨hkind, rfl⟩ := ofNet_eq_ok.mp hlookup
  by_cases hboolean : kind = .boolean
  · rw [if_pos hboolean] at h
    obtain ⟨-, rfl⟩ := pure_eq_ok.mp h
    exact ⟨rfl, hboolean ▸ hkind⟩
  · rw [if_neg hboolean] at h
    exact absurd h throw_ne_ok

/-! ### Relations -/

theorem Typed.lowerHop (h : Typed program s) {host : Host α} {hop : Hop α} {q : PortId}
    (hrun : Session.lowerHop host hop s = .ok q s') :
    Leads program s s' ∧ s'.fragment.Offers q .transform := by
  cases hop with
  | fixed pose => exact h.constPort hrun
  | measured sensor device inverted =>
      obtain ⟨_, s₁, hcheck, hafter⟩ := bind_eq_ok.mp hrun
      obtain rfl := checkDevice_eq_ok hcheck
      obtain ⟨measured, s₂, hsensor, hafter⟩ := bind_eq_ok.mp hafter
      obtain ⟨hleads, hmeasured⟩ := h.add hsensor .nil rfl
      cases inverted with
      | false =>
          obtain ⟨rfl, rfl⟩ := pure_eq_ok.mp hafter
          exact ⟨hleads, hmeasured⟩
      | true =>
          rw [if_pos rfl] at hafter
          obtain ⟨hleads₂, hq⟩ := hleads.typed.add hafter (.cons hmeasured .nil) ⟨_, rfl, rfl⟩
          exact ⟨hleads.trans hleads₂, hq⟩

theorem Typed.lowerHops (h : Typed program s) {host : Host α} {hops : List (Hop α)}
    {before q : PortId} (hbefore : s.fragment.Offers before .transform)
    (hrun : Session.lowerHops host before hops s = .ok q s') :
    Leads program s s' ∧ s'.fragment.Offers q .transform := by
  induction hops generalizing s before with
  | nil =>
      obtain ⟨rfl, rfl⟩ := pure_eq_ok.mp hrun
      exact ⟨h.leads, hbefore⟩
  | cons hop rest ih =>
      obtain ⟨port, s₁, hhop, hrun⟩ := bind_eq_ok.mp hrun
      obtain ⟨product, s₂, hmul, hrest⟩ := bind_eq_ok.mp hrun
      obtain ⟨hleads₁, hport⟩ := h.lowerHop hhop
      obtain ⟨hleads₂, hproduct⟩ := hleads₁.typed.add hmul
        (.cons (hbefore.extend hleads₁.extends) (.cons hport .nil)) ⟨_, _, rfl, rfl⟩
      obtain ⟨hleads₃, hq⟩ := ih hleads₂.typed hproduct hrest
      exact ⟨hleads₁.trans (hleads₂.trans hleads₃), hq⟩

theorem Typed.lowerRelation (h : Typed program s) {host : Host α} {source target : String}
    {q : PortId} (hrun : Session.lowerRelation host source target s = .ok q s') :
    Leads program s s' ∧ s'.fragment.Offers q .transform := by
  rcases lowerRelation_eq_ok hrun with ⟨-, hconst⟩ | ⟨hop, rest, first, s₁, -, hhop, hrest⟩
  · exact h.constPort hconst
  · obtain ⟨hleads₁, hfirst⟩ := h.lowerHop hhop
    obtain ⟨hleads₂, hq⟩ := hleads₁.typed.lowerHops hfirst hrest
    exact ⟨hleads₁.trans hleads₂, hq⟩

/-! ### Placeholders -/

/-- A session keeps its types whatever it notes about placeholders and their
sources. -/
theorem Typed.noted (h : Typed program s) (hfragment : s'.fragment = s.fragment)
    (hlowered : s'.lowered = s.lowered) (hconstants : s'.constants = s.constants) :
    Leads program s s' := by
  refine ⟨⟨?_, ?_, ?_, ?_, ?_⟩, ?_⟩
  · rw [hfragment]
    exact h.wellFormed
  · rw [hfragment]
    exact h.blocks
  · rw [hfragment, hlowered]
    exact h.entries
  · rw [hfragment, hconstants]
    exact h.constants
  · rw [hfragment]
    exact h.signals
  · rw [hfragment]
    exact Fragment.Extends.refl _

theorem Typed.addResolver (h : Typed program s) {r : Resolver α} {u : Unit}
    (hrun : Session.addResolver r s = .ok u s') : Leads program s s' := by
  obtain rfl := modify_eq_ok.mp hrun
  exact h.noted rfl rfl rfl

/-- A wire joins ports of one kind. -/
theorem Typed.withWire (h : Typed program s) {source target : PortId}
    (hports : ∃ p t, s.fragment.ports[source]? = some p ∧ s.fragment.ports[target]? = some t ∧
      p.direction = .output ∧ t.direction = .input ∧ p.kind = t.kind)
    (hfree : s.fragment.producer? target = none) :
    Leads program s { s with fragment := s.fragment.withWires [⟨source, target⟩] } :=
  h.grow (Fragment.withWires_extends _ _) (h.wellFormed.withWire hports hfree)
    (fun hb => h.blocks hb) rfl

/-- The block of a placeholder has an output port. -/
theorem Typed.openPlaceholder (h : Typed program s) {id : ExprId} {n : Node α} {number : Nat}
    {label : String} {q : PortId} (hn : program.pool.get? id = some n)
    (hform : n.form = .placeholder number label)
    (hrun : Session.openPlaceholder program.pool id s = .ok q s') :
    Leads program s s' ∧ ∃ kind, s'.fragment.Offers q kind := by
  obtain ⟨hfits, rfl, rfl⟩ := openPlaceholder_eq_ok hn hform hrun
  have hblocks : (s.fragment.withBlock .identity [n.kind] (some n.kind)).Typed :=
    Fragment.Typed.withBlock h.blocks fun kind hkind => by
      rw [Option.some.inj hkind]
      rfl
  have hgrown := h.grow Fragment.withBlock_extends (h.wellFormed.withBlock hfits) hblocks rfl
  exact ⟨hgrown.trans (hgrown.typed.noted rfl rfl rfl), n.kind, _, Fragment.withBlock_output, rfl,
    rfl⟩

/-- Wiring a placeholder changes no kinds. -/
theorem Typed.resolve (h : Typed program s) {number : Nat} {port : PortId} {u : Unit}
    (hrun : Session.resolve number port s = .ok u s') : Leads program s s' := by
  obtain ⟨p, -, hports, hfree, rfl⟩ := resolve_eq_ok hrun
  have hwired := h.withWire hports hfree
  exact hwired.trans (hwired.typed.noted rfl rfl rfl)

/-! ### Expressions -/

/-- The ports of operands offer the kinds of the operands. -/
theorem Typed.operands (h : Typed program s) {ids : List ExprId} {ports : List PortId}
    (hports : List.Forall₂ (fun d q => s.lowered.get? d = some q) ids ports) :
    ∃ kinds, List.Forall₂ (fun d k => program.pool.kindOf d = .ok k) ids kinds ∧
      List.Forall₂ s.fragment.Offers ports kinds := by
  induction hports with
  | nil => exact ⟨[], .nil, .nil⟩
  | cons hfirst _ ih =>
      obtain ⟨kind, hkind, hoffers⟩ := h.entries hfirst
      obtain ⟨kinds, hkinds, hrest⟩ := ih
      exact ⟨kind :: kinds, .cons hkind hkinds, .cons hoffers hrest⟩

/-- **The step of lowering.**  Lowering a node whose operands are entered
keeps a session typed. -/
theorem LoweredBy.typed (hprogram : program.Regular) {id : ExprId} {n : Node α}
    {inputs : List PortId} {q : PortId} (hn : program.pool.get? id = some n)
    (hs : Typed program s)
    (hinputs : List.Forall₂ (fun d q => s.lowered.get? d = some q) n.dependencies inputs)
    (h : LoweredBy program id n inputs s q s') :
    Leads program s s' ∧ ∃ kind, s'.fragment.Offers q kind := by
  cases h with
  | constant hform hrun =>
      obtain ⟨hleads, hq⟩ := hs.constPort hrun
      exact ⟨hleads, _, hq⟩
  | parameter hform hvalue hkind hrun =>
      obtain ⟨hleads, hq⟩ := hs.constPort hrun
      exact ⟨hleads, _, hq⟩
  | relation hform hrun =>
      obtain ⟨hleads, hq⟩ := hs.lowerRelation hrun
      exact ⟨hleads, _, hq⟩
  | placeholder hform hrun => exact hs.openPlaceholder hn hform hrun
  | block hform hrun =>
      obtain ⟨kinds, hkinds, hoffers⟩ := hs.operands hinputs
      obtain ⟨hleads, hq⟩ := hs.add hrun hoffers (hprogram.pool.accepts hn hform hkinds)
      exact ⟨hleads, _, hq⟩

/-- An expression may be entered with a port of its kind. -/
theorem Typed.entered (h : Typed program s) {id : ExprId} {q : PortId} {kind : Kind}
    (hkind : program.pool.kindOf id = .ok kind) (hq : s.fragment.Offers q kind) :
    Typed program (s.entered id q) := by
  refine ⟨h.wellFormed, h.blocks, ?_, h.constants, h.signals⟩
  intro j r hj
  rcases Table.get?_insert_cases hj with ⟨rfl, rfl⟩ | hold
  · exact ⟨kind, hkind, hq⟩
  · exact h.entries hold

/-- **Lowering an expression** keeps a session typed, and the port of the
expression offers the kind of the expression. -/
theorem Typed.lower (hprogram : program.Regular) (h : Typed program s) {id : ExprId} {q : PortId}
    (hrun : Session.lower program id s = .ok q s') :
    Leads program s s' ∧ ∃ kind, program.pool.kindOf id = .ok kind ∧
      s'.fragment.Offers q kind := by
  have hout : Outcome (Leads program s) id s q s' := by
    refine lowerWithin_induct (P := fun _ => True) hprogram.pool
      (.of_rules hprogram.rules) (fun _ _ _ _ => trivial) ?_ trivial h.leads hrun
    intro j n inputs s₁ s₂ r _ hn _ hs₁ hinputs hby hkind
    obtain ⟨hleads, kind, hoffers⟩ := hby.typed hprogram hn hs₁.typed hinputs
    rw [hoffers.kindOf] at hkind
    obtain rfl := Except.ok.inj hkind
    have hnode : program.pool.kindOf j = .ok n.kind := Pool.kindOf_eq_ok.mpr ⟨n, hn, rfl⟩
    exact ⟨hleads.typed.entered hnode hoffers, hs₁.extends.trans hleads.extends⟩
  exact ⟨hout.holds, hout.holds.typed.entries hout.entry⟩

/-- An expression of a known kind. -/
theorem Typed.lowerKind (hprogram : program.Regular) (h : Typed program s) {id : ExprId}
    {kind : Kind} (hkind : program.pool.kindOf id = .ok kind) {q : PortId}
    (hrun : Session.lower program id s = .ok q s') :
    Leads program s s' ∧ s'.fragment.Offers q kind := by
  obtain ⟨hleads, k, hk, hoffers⟩ := h.lower hprogram hrun
  rw [hkind] at hk
  cases hk
  exact ⟨hleads, hoffers⟩

/-- Passing a boolean condition on. -/
theorem Typed.lowerBoolean (hprogram : program.Regular) (h : Typed program s) {s₁ : Session α}
    {id : ExprId} {what : String} {q : PortId} {u : Unit}
    (hrun : Session.lower program id s = .ok q s₁)
    (hexpect : expectBoolean q what s₁ = .ok u s') :
    Leads program s s' ∧ s'.fragment.Offers q .boolean := by
  obtain ⟨rfl, hkind⟩ := expectBoolean_eq_ok hexpect
  obtain ⟨hleads, kind, -, hoffers⟩ := h.lower hprogram hrun
  rw [hoffers.kindOf] at hkind
  cases hkind
  exact ⟨hleads, hoffers⟩

/-! ### The end of a session -/

theorem Typed.sourcePort (hprogram : program.Regular) (h : Typed program s) {source : Source α}
    {q : PortId} (hrun : Session.sourcePort program source s = .ok q s') :
    Leads program s s' := by
  cases source with
  | expression producer => exact (h.lower hprogram hrun).1
  | constant v => exact (h.constPort hrun).1
  | port id =>
      obtain ⟨-, rfl⟩ := pure_eq_ok.mp hrun
      exact h.leads

theorem Typed.resolveOpen (hprogram : program.Regular) (h : Typed program s)
    {resolvers : List (Resolver α)} {p : OpenPlaceholder} {u : Unit}
    (hrun : Session.resolveOpen program resolvers p s = .ok u s') : Leads program s s' := by
  obtain ⟨r, port, s₁, -, hsource, hresolve⟩ := resolveOpen_eq_ok hrun
  have hleads := h.sourcePort hprogram hsource
  exact hleads.trans (hleads.typed.resolve hresolve)

theorem Typed.resolveEach (hprogram : program.Regular) (h : Typed program s)
    {resolvers : List (Resolver α)} {waiting : List OpenPlaceholder} {u : Unit}
    (hrun : Session.resolveEach program resolvers waiting s = .ok u s') :
    Leads program s s' := by
  induction waiting generalizing s with
  | nil =>
      obtain ⟨-, rfl⟩ := pure_eq_ok.mp hrun
      exact h.leads
  | cons p rest ih =>
      obtain ⟨_, s₁, hfirst, hrest⟩ := bind_eq_ok.mp hrun
      have hleads := h.resolveOpen hprogram hfirst
      exact hleads.trans (ih hleads.typed hrest)

/-- **The end of a session** keeps it typed, and its fragment is complete. -/
theorem Typed.finish (hprogram : program.Regular) (h : Typed program s) {f : Fragment α}
    (hrun : Session.finish program s = .ok f s') :
    Leads program s s' ∧ s'.fragment = f ∧ f.validate = .ok () := by
  obtain ⟨hresolve, hcomplete⟩ := finish_eq_ok hrun
  refine ⟨?_, hcomplete⟩
  refine resolveWithin_induct (I := Leads program s) ?_ h.leads hresolve
  exact fun hs hround => hs.trans (hs.typed.resolveEach hprogram hround)

end Session

end SignalNet
