import SignalNet.Compile.Compiler
import SignalNet.Proofs.Compile.Lowering
import SignalNet.Proofs.Pool.Course

/-!
# How a network represents expressions

While expressions without placeholders are lowered, the session stays
*faithful* (`Session.Faithful`): the port entered for an expression is the
output of a block that does what the form of the expression says, on the ports
entered for the operands.  Constants are represented up to structural equality
only: the block behind a constant holds the first one of its kind that the
session came across (`Session.Grounded.constants`).

* `Session.LoweredBy.faithful` is the step: one node is lowered and entered.
* `Session.compile_expr_represents` is the result for a compiled expression.
-/

namespace SignalNet

open Computing

variable {α : Type} [Scalar α]

/-- The constants among the expressions of `P`: literals, the values of
parameters, and the fixed motions of relations. -/
def Program.Constant (program : Program α) (P : ExprId → Prop) (v : Value α) : Prop :=
  ∃ id n, P id ∧ program.pool.get? id = some n ∧
    (n.form = .constant v ∨
      (∃ name, n.form = .parameter name ∧ program.parameters.value? name = some v) ∨
      ∃ source target path, n.form = .relation source target ∧
        program.host.path source target = some path ∧
        (path = [] ∧ v = .transform .identity ∨
          ∃ pose, .fixed pose ∈ path ∧ v = .transform pose))

namespace Session

/-- A port carries the motion of a hop. -/
def HopAt (s : Session α) (q : PortId) : Hop α → Prop
  | .fixed pose => s.constants.get? (Value.transform pose).canonical = some q
  | .measured sensor device false => s.fragment.Makes q (.sensor sensor device) [] .transform
  | .measured sensor device true => ∃ measured,
      s.fragment.Makes measured (.sensor sensor device) [] .transform ∧
      s.fragment.Makes q (.unary .invert) [measured] .transform

/-- A port carries the motion at another port, followed by hops. -/
def AlongAt (s : Session α) (q : PortId) : PortId → List (Hop α) → Prop
  | before, [] => q = before
  | before, hop :: rest => ∃ port product, s.HopAt port hop ∧
      s.fragment.Makes product (.binary .mul) [before, port] .transform ∧
      s.AlongAt q product rest

/-- A port carries the motion along a path. -/
def MotionAt (s : Session α) (q : PortId) : List (Hop α) → Prop
  | [] => s.constants.get? (Value.transform (Pose.identity : Pose α)).canonical = some q
  | hop :: rest => ∃ first, s.HopAt first hop ∧ s.AlongAt q first rest

/-- A port represents a node. -/
inductive Represents (program : Program α) (s : Session α) (n : Node α) (q : PortId) : Prop
  | constant {v : Value α} (hform : n.form = .constant v)
      (hport : s.constants.get? v.canonical = some q)
  | parameter {name : String} {v : Value α} (hform : n.form = .parameter name)
      (hvalue : program.parameters.value? name = some v)
      (hport : s.constants.get? v.canonical = some q)
  | relation {source target : String} {path : List (Hop α)}
      (hform : n.form = .relation source target)
      (hpath : program.host.path source target = some path) (hport : s.MotionAt q path)
  | block {primitive : Primitive α} {sources : List PortId} {b : BlockId} {blk : Block α}
      (hform : n.form.primitive? program.parameters = some primitive)
      (hport : s.fragment.Produces q primitive sources n.kind b blk)
      (hsources : List.Forall₂ (fun d source => s.lowered.get? d = some source)
        n.dependencies sources)

section Upholds

variable {s s' : Session α}

/-- The second session has grown out of the first one, and the expressions of
`P` have kept their ports. -/
structure Upholds (P : ExprId → Prop) (s s' : Session α) : Prop where
  fragment : s.fragment.Extends s'.fragment
  lowered : ∀ {id : ExprId} {q : PortId}, P id → s.lowered.get? id = some q →
    s'.lowered.get? id = some q
  constants : ∀ {c : Value α} {q : PortId}, s.constants.get? c = some q →
    s'.constants.get? c = some q

theorem Extends.upholds (h : s.Extends s') : s.Upholds (fun _ => True) s' :=
  ⟨h.fragment, fun _ => h.lowered, h.constants⟩

theorem Upholds.refl (P : ExprId → Prop) (s : Session α) : s.Upholds P s :=
  ⟨Fragment.Extends.refl _, fun _ h => h, fun h => h⟩

theorem Upholds.trans {P : ExprId → Prop} {s₁ s₂ s₃ : Session α} (h₁ : s₁.Upholds P s₂)
    (h₂ : s₂.Upholds P s₃) : s₁.Upholds P s₃ :=
  ⟨h₁.fragment.trans h₂.fragment, fun hid h => h₂.lowered hid (h₁.lowered hid h),
    fun h => h₂.constants (h₁.constants h)⟩

variable {P : ExprId → Prop}

theorem HopAt.extend {q : PortId} {hop : Hop α} (h : s.HopAt q hop) (hs : s.Upholds P s') :
    s'.HopAt q hop := by
  match hop, h with
  | .fixed pose, h => exact hs.constants h
  | .measured sensor device false, h => exact Fragment.Makes.extend h hs.fragment
  | .measured sensor device true, ⟨measured, hmeasured, hinvert⟩ =>
      exact ⟨measured, hmeasured.extend hs.fragment, hinvert.extend hs.fragment⟩

theorem AlongAt.extend {q : PortId} {hops : List (Hop α)} {before : PortId}
    (h : s.AlongAt q before hops) (hs : s.Upholds P s') : s'.AlongAt q before hops := by
  induction hops generalizing before with
  | nil => exact h
  | cons hop rest ih =>
      obtain ⟨port, product, hhop, hproduct, hrest⟩ := h
      exact ⟨port, product, hhop.extend hs, hproduct.extend hs.fragment, ih hrest⟩

theorem MotionAt.extend {q : PortId} {path : List (Hop α)} (h : s.MotionAt q path)
    (hs : s.Upholds P s') : s'.MotionAt q path := by
  cases path with
  | nil => exact hs.constants h
  | cons hop rest =>
      obtain ⟨first, hfirst, hrest⟩ := h
      exact ⟨first, hfirst.extend hs, hrest.extend hs⟩

/-- A node whose operands keep their ports is still represented. -/
theorem Represents.uphold {program : Program α} {n : Node α} {q : PortId}
    (h : Represents program s n q) (hs : s.Upholds P s') (hn : ∀ d ∈ n.dependencies, P d) :
    Represents program s' n q := by
  cases h with
  | constant hform hport => exact .constant hform (hs.constants hport)
  | parameter hform hvalue hport => exact .parameter hform hvalue (hs.constants hport)
  | relation hform hpath hport => exact .relation hform hpath (hport.extend hs)
  | block hform hport hsources =>
      refine .block hform (hport.extend hs.fragment) ?_
      exact forall₂_imp_of_mem hsources fun d hd source hsource => hs.lowered (hn d hd) hsource

theorem Represents.extend {program : Program α} {n : Node α} {q : PortId}
    (h : Represents program s n q) (hs : s.Extends s') : Represents program s' n q :=
  h.uphold hs.upholds fun _ _ => trivial

end Upholds

/-- Every expression of `P` that is entered is represented by its port, and
its operands belong to `P`. -/
structure Depicts (program : Program α) (P : ExprId → Prop) (s : Session α) : Prop where
  wellFormed : s.fragment.WellFormed
  entries : ∀ {id : ExprId} {q : PortId}, P id → s.lowered.get? id = some q →
    ∃ n, program.pool.get? id = some n ∧ Represents program s n q ∧ ∀ d ∈ n.dependencies, P d

/-- What does not depend on the expressions entered: the fragment is well
formed and has no sinks, every constant entered has a block with a constant
that is structurally equal, and no placeholder is open. -/
structure Grounded (program : Program α) (P : ExprId → Prop) (s : Session α) : Prop where
  wellFormed : s.fragment.WellFormed
  outputs : ∀ {b : BlockId} {blk : Block α}, s.fragment.blocks[b]? = some blk →
    ∃ q, blk.output = some q
  constants : ∀ {c : Value α} {q : PortId}, s.constants.get? c = some q →
    ∃ v, v.canonical = c ∧ program.Constant P v ∧
      s.fragment.Makes q (.constant v) [] v.kind
  placeholders : s.placeholders = []
  signals : s.fragment.signals = {}

/-- Every expression entered belongs to `P` and is represented by its port. -/
structure Faithful (program : Program α) (P : ExprId → Prop) (s : Session α) : Prop
    extends Grounded program P s where
  entries : ∀ {id : ExprId} {q : PortId}, s.lowered.get? id = some q →
    P id ∧ ∃ n, program.pool.get? id = some n ∧ Represents program s n q

/-- What is entered in a faithful session belongs to `P`, operands included. -/
theorem Faithful.depicts {program : Program α} {P : ExprId → Prop} {s : Session α}
    (h : Faithful program P s) : Depicts program P s := by
  refine ⟨h.wellFormed, ?_⟩
  intro id q _ hentry
  obtain ⟨-, n, hn, hrepresents⟩ := h.entries hentry
  refine ⟨n, hn, hrepresents, ?_⟩
  cases hrepresents with
  | constant hform _ => simp [Node.dependencies, hform, Form.dependencies]
  | parameter hform _ _ => simp [Node.dependencies, hform, Form.dependencies]
  | relation hform _ _ => simp [Node.dependencies, hform, Form.dependencies]
  | block _ _ hsources =>
      intro d hd
      obtain ⟨source, -, hsource⟩ := forall₂_exists_of_mem hsources hd
      exact (h.entries hsource).1

theorem faithful_empty (program : Program α) (P : ExprId → Prop) :
    Faithful program P (empty : Session α) where
  wellFormed := Fragment.wellFormed_empty
  outputs h := by simp [empty] at h
  constants h := by simp [empty, Table.get?] at h
  placeholders := rfl
  signals := rfl
  entries h := by simp [empty, Table.get?] at h

variable {program : Program α} {P : ExprId → Prop}

/-! ### Relations -/

/-- A new block keeps a session grounded. -/
theorem Grounded.added {s : Session α} (h : Grounded program P s) {f : Fragment α}
    {primitive : Primitive α} {inputs : List PortId} {kinds : List Kind} {kind : Kind}
    {q : PortId} (hadded : Fragment.Added s.fragment f primitive inputs kinds kind q) :
    Grounded program P { s with fragment := f } where
  wellFormed := hadded.valid
  outputs := by
    intro b blk hb
    rcases hadded.block_cases hb with hold | ⟨-, rfl⟩
    · exact h.outputs hold
    · exact ⟨q, rfl⟩
  constants := by
    intro c r hr
    obtain ⟨v, hv, hconstant, hmakes⟩ := h.constants hr
    exact ⟨v, hv, hconstant, hmakes.extend hadded.extends⟩
  placeholders := h.placeholders
  signals := hadded.signals.trans h.signals

theorem Grounded.add {s s' : Session α} (h : Grounded program P s) {primitive : Primitive α}
    {inputs : List PortId} {kind : Kind} {q : PortId}
    (hadd : Session.add primitive inputs kind s = .ok q s') :
    Grounded program P s' ∧ s.Extends s' ∧ s'.fragment.Makes q primitive inputs kind := by
  obtain ⟨f, kinds, hadded, rfl⟩ := add_added h.wellFormed hadd
  exact ⟨h.added hadded, extends_withFragment hadded.extends, hadded.makes⟩

theorem Grounded.constPort {s s' : Session α} (h : Grounded program P s) {v : Value α}
    {q : PortId} (hv : program.Constant P v) (hrun : Session.constPort v s = .ok q s') :
    Grounded program P s' ∧ s.Extends s' ∧ s'.constants.get? v.canonical = some q := by
  refine ⟨?_, constPort_extends h.wellFormed hrun, constPort_entered h.wellFormed hrun⟩
  rcases constPort_cases h.wellFormed hrun with ⟨-, rfl⟩ | ⟨hnone, f, hadded, rfl⟩
  · exact h
  · have hadded' := h.added hadded
    refine ⟨hadded'.wellFormed, hadded'.outputs, ?_, hadded'.placeholders, hadded'.signals⟩
    intro c r hr
    rcases Table.get?_insert_cases hr with ⟨rfl, rfl⟩ | hold
    · exact ⟨v, rfl, hv, hadded.makes⟩
    · exact hadded'.constants hold

/-- An invariant of sessions that blocks keep, and constants that are
permitted. -/
structure Supports (I : Session α → Prop) (Permitted : Value α → Prop) : Prop where
  wellFormed : ∀ {s}, I s → s.fragment.WellFormed
  add : ∀ {s s' primitive inputs kind q}, I s → Session.add primitive inputs kind s = .ok q s' →
    I s'
  constPort : ∀ {s s' v q}, Permitted v → I s → Session.constPort v s = .ok q s' → I s'

theorem grounded_supports (program : Program α) (P : ExprId → Prop) :
    Supports (Grounded program P) (program.Constant P) where
  wellFormed h := h.wellFormed
  add h hrun := (h.add hrun).1
  constPort hv h hrun := (h.constPort hv hrun).1

namespace Supports

variable {I : Session α → Prop} {Permitted : Value α → Prop} {host : Host α}

/-- A block that is added. -/
theorem added (hI : Supports I Permitted) {s s' : Session α} (h : I s) {primitive : Primitive α}
    {inputs : List PortId} {kind : Kind} {q : PortId}
    (hadd : Session.add primitive inputs kind s = .ok q s') :
    I s' ∧ s.Extends s' ∧ s'.fragment.Makes q primitive inputs kind := by
  refine ⟨hI.add h hadd, ?_⟩
  obtain ⟨f, kinds, hadded, rfl⟩ := add_added (hI.wellFormed h) hadd
  exact ⟨extends_withFragment hadded.extends, hadded.makes⟩

/-- A constant that is entered. -/
theorem entered (hI : Supports I Permitted) {s s' : Session α} (h : I s) {v : Value α}
    {q : PortId} (hv : Permitted v) (hrun : Session.constPort v s = .ok q s') :
    I s' ∧ s.Extends s' ∧ s'.constants.get? v.canonical = some q :=
  ⟨hI.constPort hv h hrun, constPort_extends (hI.wellFormed h) hrun,
    constPort_entered (hI.wellFormed h) hrun⟩

theorem lowerHop (hI : Supports I Permitted) {s s' : Session α} (h : I s) {hop : Hop α}
    {q : PortId} (hfixed : ∀ pose, hop = .fixed pose → Permitted (.transform pose))
    (hrun : Session.lowerHop host hop s = .ok q s') :
    I s' ∧ s.Extends s' ∧ s'.HopAt q hop := by
  cases hop with
  | fixed pose => exact hI.entered h (hfixed pose rfl) hrun
  | measured sensor device inverted =>
      obtain ⟨_, s₁, hcheck, hafter⟩ := bind_eq_ok.mp hrun
      obtain rfl := checkDevice_eq_ok hcheck
      obtain ⟨measured, s₂, hsensor, hafter⟩ := bind_eq_ok.mp hafter
      obtain ⟨h₂, hextends, hmakes⟩ := hI.added h hsensor
      cases inverted with
      | false =>
          obtain ⟨rfl, rfl⟩ := pure_eq_ok.mp hafter
          exact ⟨h₂, hextends, hmakes⟩
      | true =>
          rw [if_pos rfl] at hafter
          obtain ⟨h₃, hextends₃, hinvert⟩ := hI.added h₂ hafter
          exact ⟨h₃, hextends.trans hextends₃, measured, hmakes.extend hextends₃.fragment, hinvert⟩

theorem lowerHops (hI : Supports I Permitted) {s s' : Session α} {hops : List (Hop α)}
    {before q : PortId} (h : I s)
    (hfixed : ∀ pose, .fixed pose ∈ hops → Permitted (.transform pose))
    (hrun : Session.lowerHops host before hops s = .ok q s') :
    I s' ∧ s.Extends s' ∧ s'.AlongAt q before hops := by
  induction hops generalizing s before with
  | nil =>
      obtain ⟨rfl, rfl⟩ := pure_eq_ok.mp hrun
      exact ⟨h, Extends.refl _, rfl⟩
  | cons hop rest ih =>
      obtain ⟨port, s₁, hhop, hafter⟩ := bind_eq_ok.mp hrun
      obtain ⟨product, s₂, hmul, hrest⟩ := bind_eq_ok.mp hafter
      obtain ⟨h₁, hextends₁, hat⟩ :=
        hI.lowerHop h (fun pose hpose => hfixed pose (by simp [hpose])) hhop
      obtain ⟨h₂, hextends₂, hmakes⟩ := hI.added h₁ hmul
      obtain ⟨h₃, hextends₃, halong⟩ :=
        ih h₂ (fun pose hpose => hfixed pose (by simp [hpose])) hrest
      refine ⟨h₃, (hextends₁.trans hextends₂).trans hextends₃, port, product, ?_, ?_, halong⟩
      · exact hat.extend (hextends₂.trans hextends₃).upholds
      · exact hmakes.extend hextends₃.fragment

theorem lowerRelation (hI : Supports I Permitted) {s s' : Session α} {source target : String}
    {q : PortId} (h : I s)
    (hidentity : host.path source target = some [] → Permitted (.transform .identity))
    (hfixed : ∀ path, host.path source target = some path → ∀ pose, .fixed pose ∈ path →
      Permitted (.transform pose))
    (hrun : Session.lowerRelation host source target s = .ok q s') :
    I s' ∧ s.Extends s' ∧ ∃ path, host.path source target = some path ∧ s'.MotionAt q path := by
  rcases lowerRelation_eq_ok hrun with
    ⟨hpath, hconst⟩ | ⟨hop, rest, first, s₁, hpath, hhop, hrest⟩
  · obtain ⟨h', hextends, hport⟩ := hI.entered h (hidentity hpath) hconst
    exact ⟨h', hextends, [], hpath, hport⟩
  · have hposes := hfixed _ hpath
    obtain ⟨h₁, hextends₁, hat⟩ :=
      hI.lowerHop h (fun pose hpose => hposes pose (by simp [hpose])) hhop
    obtain ⟨h₂, hextends₂, halong⟩ :=
      hI.lowerHops h₁ (fun pose hpose => hposes pose (by simp [hpose])) hrest
    exact ⟨h₂, hextends₁.trans hextends₂, hop :: rest, hpath, first,
      hat.extend hextends₂.upholds, halong⟩

end Supports

/-! ### Expressions -/

/-- The expressions of `P` can be lowered by themselves: with an expression
`P` has its operands, and it has no placeholders. -/
structure SelfContained (program : Program α) (P : ExprId → Prop) : Prop where
  closed : ∀ {id : ExprId} {n : Node α}, P id → program.pool.get? id = some n →
    ∀ d ∈ n.dependencies, P d
  plain : ∀ {id : ExprId} {n : Node α}, P id → program.pool.get? id = some n →
    n.form.isPlaceholder = false

/-- Entering an expression extends a session. -/
theorem extends_entered {s : Session α} {id : ExprId} {q : PortId}
    (h : s.lowered.get? id = none) : s.Extends (s.entered id q) := by
  refine ⟨Fragment.Extends.refl _, ?_, fun hc => hc⟩
  intro j r hj
  have hne : j ≠ id := by
    rintro rfl
    simp [h] at hj
  exact (Table.get?_insert_of_ne _ _ hne).trans hj

/-- **The step of lowering.**  Lowering and entering a node keeps a session
faithful. -/
theorem LoweredBy.faithful (hP : SelfContained program P) {id : ExprId} {n : Node α}
    {inputs : List PortId} {s s' : Session α} {q : PortId} (hid : P id)
    (hn : program.pool.get? id = some n) (hfresh : s.lowered.get? id = none)
    (hs : Faithful program P s)
    (hinputs : List.Forall₂ (fun d q => s.lowered.get? d = some q) n.dependencies inputs)
    (h : LoweredBy program id n inputs s q s') : Faithful program P (s'.entered id q) := by
  have hlowered := h.lowered
  -- What remains in each case is that the session grows and represents the node.
  suffices hmain : Grounded program P s' ∧ s.Extends s' ∧ Represents program s' n q by
    obtain ⟨hgrounded, hextends, hrepresents⟩ := hmain
    have hentered : s'.Extends (s'.entered id q) :=
      extends_entered (by rw [hlowered]; exact hfresh)
    refine ⟨⟨hgrounded.wellFormed, hgrounded.outputs, hgrounded.constants,
      hgrounded.placeholders, hgrounded.signals⟩, ?_⟩
    intro j r hj
    rcases Table.get?_insert_cases hj with ⟨rfl, rfl⟩ | hold
    · exact ⟨hid, n, hn, hrepresents.extend hentered⟩
    · rw [hlowered] at hold
      obtain ⟨hPj, m, hm, hrep⟩ := hs.entries hold
      exact ⟨hPj, m, hm, hrep.extend (hextends.trans hentered)⟩
  cases h with
  | constant hform hrun =>
      obtain ⟨hgrounded, hextends, hport⟩ :=
        hs.toGrounded.constPort ⟨id, n, hid, hn, Or.inl hform⟩ hrun
      exact ⟨hgrounded, hextends, .constant hform hport⟩
  | parameter hform hvalue hkind hrun =>
      obtain ⟨hgrounded, hextends, hport⟩ :=
        hs.toGrounded.constPort ⟨id, n, hid, hn, Or.inr (Or.inl ⟨_, hform, hvalue⟩)⟩ hrun
      exact ⟨hgrounded, hextends, .parameter hform hvalue hport⟩
  | relation hform hrun =>
      obtain ⟨hgrounded, hextends, path, hpath, hport⟩ :=
        (grounded_supports program P).lowerRelation hs.toGrounded
          (fun hnil => ⟨id, n, hid, hn,
            Or.inr (Or.inr ⟨_, _, [], hform, hnil, Or.inl ⟨rfl, rfl⟩⟩)⟩)
          (fun path hpath pose hpose => ⟨id, n, hid, hn,
            Or.inr (Or.inr ⟨_, _, path, hform, hpath, Or.inr ⟨pose, hpose, rfl⟩⟩)⟩) hrun
      exact ⟨hgrounded, hextends, .relation hform hpath hport⟩
  | placeholder hform hrun =>
      have hplain := hP.plain hid hn
      rw [hform] at hplain
      cases hplain
  | block hform hrun =>
      obtain ⟨f, kinds, hadded, rfl⟩ := add_added hs.wellFormed hrun
      have hextends : s.Extends { s with fragment := f } := extends_withFragment hadded.extends
      exact ⟨hs.toGrounded.added hadded, hextends, .block hform hadded.produces hinputs⟩

/-- Lowering an expression of `P` keeps a session faithful. -/
theorem lower_faithful (hp : program.pool.WellFormed) (hrules : program.Standard P)
    (hP : SelfContained program P) {id : ExprId} {s s' : Session α} {q : PortId} (hid : P id)
    (hs : Faithful program P s) (h : lower program id s = .ok q s') :
    Outcome (Faithful program P) id s q s' :=
  lowerWithin_induct hp hrules hP.closed
    (fun hid hn hfresh hs hinputs hby _ => hby.faithful hP hid hn hfresh hs hinputs) hid hs h

/-- The stages of a compilation. -/
theorem compile_stages {s s' : Session α} {request : Request α} {net : CompiledNet α}
    (hrun : Session.compile program request s = .ok net s') :
    ∃ target t s₂ s₃ s₄ s₅, lowerTarget program request.target s = .ok target t ∧
      publish target t = .ok () s₂ ∧
      observeEach program request.observed .empty s₂ = .ok net.observed s₃ ∧
      aggregateStates s₃.fragment.signals s₃.fragment.signals.states .empty s₃ =
        .ok net.states s₄ ∧
      aggregateClasses s₃.fragment.signals
        (s₃.fragment.signals.exceptionClasses.flatMap ExceptionClass.chain) .empty s₄ =
        .ok net.exceptions s₅ ∧
      finish program s₅ = .ok net.fragment s' ∧ net.root = target.getLeft? := by
  obtain ⟨target, t, hlower, hafter⟩ := bind_eq_ok.mp hrun
  obtain ⟨_, s₂, hpublish, hafter⟩ := bind_eq_ok.mp hafter
  obtain ⟨observed, s₃, hobserve, hafter⟩ := bind_eq_ok.mp hafter
  obtain ⟨_, _, hget, hafter⟩ := bind_eq_ok.mp hafter
  obtain ⟨rfl, rfl⟩ := get_eq_ok.mp hget
  obtain ⟨states, s₄, hstates, hafter⟩ := bind_eq_ok.mp hafter
  obtain ⟨exceptions, s₅, hexceptions, hafter⟩ := bind_eq_ok.mp hafter
  obtain ⟨fragment, s₆, hfinish, hafter⟩ := bind_eq_ok.mp hafter
  obtain ⟨rfl, rfl⟩ := pure_eq_ok.mp hafter
  exact ⟨target, t, s₂, s₃, s₄, s₅, hlower, hpublish, hobserve, hstates, hexceptions, hfinish, rfl⟩

/-- Compiling an expression lowers it, names its port, resolves placeholders
and checks that the fragment is complete. -/
theorem compile_expr_cases {parameters : Parameters α} {id : ExprId} {s' : Session α}
    {net : CompiledNet α}
    (h : compile program { target := .expr id, parameters } empty = .ok net s') :
    ∃ q s f, lower program id empty = .ok q s ∧ Fragment.expose "out" q s.fragment = .ok () f ∧
      (s.placeholders = [] → s.fragment.signals = {} →
        net.fragment = f ∧ net.root = some q ∧ f.validate = .ok ()) := by
  obtain ⟨target, s₁, s₂, s₃, s₄, s₅, htarget, hpublish, hobserve, hstates, hclasses, hfinish,
    hroot⟩ := compile_stages h
  obtain ⟨q, s, hlower, htarget⟩ := bind_eq_ok.mp htarget
  obtain ⟨_, _, hwire, htarget⟩ := bind_eq_ok.mp htarget
  obtain ⟨f, hexpose, rfl⟩ := wire_eq_ok.mp hwire
  obtain ⟨rfl, rfl⟩ := pure_eq_ok.mp htarget
  refine ⟨q, s, f, hlower, hexpose, ?_⟩
  intro hplaceholders hsignals
  have hfsignals : f.signals = {} :=
    (Fragment.expose_eq_ok hexpose).2.2.2.2.2.2.2.trans hsignals
  obtain ⟨-, rfl⟩ := pure_eq_ok.mp hpublish
  obtain ⟨-, rfl⟩ := pure_eq_ok.mp hobserve
  rw [hfsignals] at hstates hclasses
  obtain ⟨-, rfl⟩ := pure_eq_ok.mp hstates
  obtain ⟨-, rfl⟩ := pure_eq_ok.mp hclasses
  -- No placeholder is open, so nothing is left to resolve.
  have hunresolved : ({ s with fragment := f } : Session α).unresolved = [] := by
    simp [unresolved, hplaceholders]
  obtain ⟨hresolve, hfragment, hvalid⟩ := finish_eq_ok hfinish
  rw [resolveWithin_succ, if_pos hunresolved] at hresolve
  cases hresolve
  rw [← hfragment] at hvalid
  exact ⟨hfragment.symm, hroot, hvalid⟩

/-- Giving a port a name keeps a session faithful. -/
theorem Faithful.exposed {s : Session α} (h : Faithful program P s) {name : String} {q : PortId}
    {u : Unit} {f : Fragment α} (hexpose : Fragment.expose name q s.fragment = .ok u f) :
    Faithful program P { s with fragment := f } := by
  obtain ⟨-, hextends, -, hwell, hblocks, -, -, hsignals⟩ := Fragment.expose_eq_ok hexpose
  have hs : s.Extends { s with fragment := f } := extends_withFragment hextends
  refine ⟨⟨hwell h.wellFormed, ?_, ?_, h.placeholders, hsignals.trans h.signals⟩, ?_⟩
  · intro b blk hb
    have hold : s.fragment.blocks[b]? = some blk := by
      rw [← hblocks]
      exact hb
    exact h.outputs hold
  · intro c r hr
    obtain ⟨v, hv, hconstant, hmakes⟩ := h.constants hr
    exact ⟨v, hv, hconstant, hmakes.extend hextends⟩
  · intro j r hj
    obtain ⟨hPj, n, hn, hrep⟩ := h.entries hj
    exact ⟨hPj, n, hn, hrep.extend hs⟩

/-- **A compiled expression is represented by its network.**  The session
behind the network is faithful, and its fragment is complete.  Only what the
expression reaches has to be lowered the library's way. -/
theorem compile_expr_represents (hp : program.pool.WellFormed) {id : ExprId}
    (hrules : program.Standard (program.pool.Reaches id)) (hP : SelfContained program (program.pool.Reaches id))
    {parameters : Parameters α} {s' : Session α} {net : CompiledNet α}
    (h : compile program { target := .expr id, parameters } empty = .ok net s') :
    ∃ s q, Faithful program (program.pool.Reaches id) s ∧ s.fragment = net.fragment ∧
      s.lowered.get? id = some q ∧ net.root = some q ∧ net.fragment.validate = .ok () := by
  obtain ⟨q, s, f, hlower, hexpose, hnet⟩ := compile_expr_cases h
  obtain ⟨hfaithful, hentry, -, -⟩ :=
    lower_faithful hp hrules hP .root (faithful_empty program _) hlower
  obtain ⟨hfragment, hroot, hvalid⟩ := hnet hfaithful.placeholders hfaithful.signals
  refine ⟨{ s with fragment := f }, q, hfaithful.exposed hexpose, hfragment.symm, hentry, hroot, ?_⟩
  rw [hfragment]
  exact hvalid

theorem compile_expr_faithful (hp : program.pool.WellFormed) (hrules : program.rules = .standard)
    {id : ExprId} (hP : SelfContained program (program.pool.Reaches id))
    {parameters : Parameters α} {s' : Session α} {net : CompiledNet α}
    (h : compile program { target := .expr id, parameters } empty = .ok net s') :
    ∃ s q, Faithful program (program.pool.Reaches id) s ∧ s.fragment = net.fragment ∧
      s.lowered.get? id = some q ∧ net.root = some q ∧ net.fragment.validate = .ok () :=
  compile_expr_represents hp (.of_rules hrules) hP h

end Session

/-- A compiler that succeeds has run a session. -/
theorem Compiler.compile_eq_ok {c : Compiler α} {pool : Pool α} {host : Host α}
    {request : Request α} {net : CompiledNet α} (h : c.compile pool host request = .ok net) :
    ∃ s, Session.compile ⟨pool, c.rules, request.parameters, c.settings, host⟩ request .empty =
      .ok net s := by
  unfold Compiler.compile at h
  cases hcheck : c.settings.check with
  | error e => simp [hcheck] at h
  | ok u =>
      simp only [hcheck] at h
      cases hrun : Session.compile ⟨pool, c.rules, request.parameters, c.settings, host⟩ request
        .empty with
      | error e s => simp [hrun] at h
      | ok net' s =>
          simp only [hrun, Except.ok.injEq] at h
          subst h
          exact ⟨s, rfl⟩

end SignalNet
