import SignalNet.Proofs.Compile.Representation
import SignalNet.Proofs.Compile.Traversal

/-!
# What a session keeps account of

A placeholder is lowered to a block that passes a value on, and the input of
the block stays open until the session ends.  Then it is wired to the first
source that was collected for the placeholder.

A session is *orderly* (`Session.Orderly`) if its placeholders have blocks of
their own and the inputs of those that wait are open.  It is *wired*
(`Session.Wired`) if, besides, the ports entered for expressions are what their
forms say and the inputs of the other placeholders are fed by their sources.

* `Session.Wired.grow` says what a larger session still has to account for.
* `Session.RuledBy.wired` is the step for one node, and `Session.Wired.lower`
  the result for one expression.  Rules may take forms from the library; of the
  ports of such forms nothing is said, and the others stay what they are.
-/

namespace SignalNet

open Computing

/-! ### Open inputs -/

namespace Fragment

variable {α : Type}

/-- Inputs that are open in the first fragment are open in the second one. -/
def Spares (f g : Fragment α) : Prop :=
  ∀ (q : PortId) (port : Port), f.ports[q]? = some port → f.producer? q = none →
    g.producer? q = none

/-- Wires to new inputs leave the old ones open. -/
theorem spares_of_wires {f g : Fragment α} {wires : List Connection}
    (hg : g.connections = f.connections ++ wires)
    (h : ∀ c ∈ wires, f.ports[c.target]? = none) : f.Spares g := by
  intro q port hport hopen
  unfold producer? at hopen ⊢
  simp only [hg, Option.map_eq_none_iff, List.find?_append] at hopen ⊢
  rw [hopen, Option.none_or, List.find?_eq_none]
  intro c hc htarget
  have hnone := h c hc
  rw [of_decide_eq_true htarget, hport] at hnone
  cases hnone

/-- A wire leaves the other inputs open. -/
theorem producer?_withWire_of_ne {f : Fragment α} {source target q : PortId} (hne : target ≠ q)
    (hopen : f.producer? q = none) : (f.withWires [⟨source, target⟩]).producer? q = none := by
  unfold producer? at hopen ⊢
  simp only [withWires, Option.map_eq_none_iff, List.find?_append] at hopen ⊢
  rw [hopen, Option.none_or]
  simp [hne]

/-- The wires of a new block lead to its own inputs. -/
theorem Added.spares {f g : Fragment α} {primitive : Primitive α} {sources : List PortId}
    {kinds : List Kind} {kind : Kind} {q : PortId}
    (h : Added f g primitive sources kinds kind q) : f.Spares g := by
  have hwires : g.connections = f.connections ++ wiresFrom f.ports.length sources := by
    rw [h.result]
    rfl
  refine spares_of_wires hwires ?_
  intro c hc
  obtain ⟨⟨source, target⟩, hmem, rfl⟩ := List.mem_map.mp hc
  have hrange := List.mem_range'_1.mp (List.of_mem_zip hmem).2
  exact List.getElem?_eq_none hrange.1

/-- No wire leads to the ports of a new block. -/
theorem WellFormed.producer?_withBlock {f : Fragment α} (hf : f.WellFormed)
    {primitive : Primitive α} {inputs : List Kind} {output : Option Kind}
    (hfits : Fits primitive inputs output) {input : PortId}
    (hnew : f.ports.length ≤ input) :
    (f.withBlock primitive inputs output).producer? input = none := by
  cases hproducer : (f.withBlock primitive inputs output).producer? input with
  | none => rfl
  | some source =>
      have hwire := (hf.withBlock hfits).producer?_eq_some_iff.mp hproducer
      obtain ⟨_, port, -, hport, -⟩ := hf.wires _ hwire
      exact absurd (List.getElem?_eq_some_iff.mp hport).1 (Nat.not_lt.mpr hnew)

/-- A block passes the value of an input on. -/
def Passes (f : Fragment α) (input q : PortId) (kind : Kind) : Prop :=
  ∃ b blk, f.blocks[b]? = some blk ∧ blk.primitive = .identity ∧ blk.inputs = [input] ∧
    blk.output = some q ∧ f.ports[q]? = some ⟨b, .output, kind, 0⟩

theorem Passes.extend {f g : Fragment α} {input q : PortId} {kind : Kind}
    (h : f.Passes input q kind) (hg : f.Extends g) : g.Passes input q kind := by
  obtain ⟨b, blk, hblk, hprimitive, hinputs, hout, hport⟩ := h
  exact ⟨b, blk, hg.block hblk, hprimitive, hinputs, hout, hg.port hport⟩

/-- Once its input is fed, the block makes a copy. -/
theorem Passes.makes {f : Fragment α} {input source q : PortId} {kind : Kind}
    (h : f.Passes input q kind) (hsource : f.producer? input = some source) :
    f.Makes q .identity [source] kind := by
  obtain ⟨b, blk, hblk, hprimitive, hinputs, hout, hport⟩ := h
  refine ⟨b, blk, hblk, hprimitive, hout, hport, ?_⟩
  rw [hinputs]
  exact .cons hsource .nil

theorem Passes.input {f : Fragment α} (hf : f.WellFormed) {input q : PortId} {kind : Kind}
    (h : f.Passes input q kind) :
    ∃ port, f.ports[input]? = some port ∧ port.direction = .input := by
  obtain ⟨b, blk, hblk, -, hinputs, -, -⟩ := h
  have hfirst : blk.inputs[0]? = some input := by
    rw [hinputs]
    rfl
  obtain ⟨kind', hport⟩ := hf.inputs hblk hfirst
  exact ⟨_, hport, rfl⟩

end Fragment

namespace Session

open Lowering

variable {α : Type} [Scalar α]

/-- The second session has grown out of the first one, and the sources that
it has collected are for placeholders among the targets. -/
structure Grows (targets : List ExprId) (s s' : Session α) : Prop extends Extends s s' where
  placeholders : ∀ o ∈ s.placeholders, ∃ o' ∈ s'.placeholders, o'.expr = o.expr
  resolvers : ∃ more, s'.resolvers = s.resolvers ++ more ∧
    ∀ r ∈ more, ∀ id ∈ r.targets, id ∈ targets

variable {targets : List ExprId}

/-- A session that has collected nothing. -/
theorem Extends.grows {s s' : Session α} (h : s.Extends s')
    (hplaceholders : s.placeholders <+: s'.placeholders) (hresolvers : s'.resolvers = s.resolvers) :
    s.Grows targets s' :=
  ⟨h, fun o ho => ⟨o, hplaceholders.subset ho, rfl⟩, [], by simp [hresolvers], by simp⟩

theorem Grows.refl (s : Session α) : s.Grows targets s :=
  (Extends.refl s).grows List.prefix_rfl rfl

theorem Grows.trans {s₁ s₂ s₃ : Session α} (h₁ : s₁.Grows targets s₂)
    (h₂ : s₂.Grows targets s₃) : s₁.Grows targets s₃ := by
  refine ⟨h₁.toExtends.trans h₂.toExtends, ?_, ?_⟩
  · intro o ho
    obtain ⟨o', ho', heq⟩ := h₁.placeholders o ho
    obtain ⟨o'', ho'', heq'⟩ := h₂.placeholders o' ho'
    exact ⟨o'', ho'', heq'.trans heq⟩
  · obtain ⟨first, hfirst, hold⟩ := h₁.resolvers
    obtain ⟨second, hsecond, hnew⟩ := h₂.resolvers
    refine ⟨first ++ second, by rw [hsecond, hfirst, List.append_assoc], ?_⟩
    intro r hr
    rcases List.mem_append.mp hr with hr | hr
    · exact hold r hr
    · exact hnew r hr

theorem Grows.mono {s s' : Session α} {more : List ExprId} (h : s.Grows targets s')
    (hmore : ∀ id ∈ targets, id ∈ more) : s.Grows more s' := by
  obtain ⟨new, hnew, hids⟩ := h.resolvers
  exact ⟨h.toExtends, h.placeholders, new, hnew, fun r hr id hid => hmore id (hids r hr id hid)⟩

/-- The port of an expression is what the form of the expression says.
Nothing is said about parameters and relations, and about forms that rules take
from the library. -/
inductive Shows (program : Program α) (s : Session α) (id : ExprId) (n : Node α) (q : PortId) :
    Prop
  | constant {v : Value α} (hform : n.form = .constant v)
      (hport : s.constants.get? v.canonical = some q)
  | block {primitive : Primitive α} {sources : List PortId}
      (hform : n.form.primitive? program.parameters = some primitive)
      (hport : s.fragment.Makes q primitive sources n.kind)
      (hsources : List.Forall₂ (fun d source => s.lowered.get? d = some source)
        n.dependencies sources)
  | placeholder {number : Nat} {label : String} (hform : n.form = .placeholder number label)
      (hopen : ∃ o ∈ s.placeholders, o.expr = id)
  | given (hform : (∃ name, n.form = .parameter name) ∨
      ∃ source target, n.form = .relation source target)
  | ruled (hother : ¬ program.rules.Keeps n.form)

theorem Shows.grow {program : Program α} {s s' : Session α} {id : ExprId} {n : Node α}
    {q : PortId} (h : Shows program s id n q) (hs : s.Grows targets s') : Shows program s' id n q := by
  cases h with
  | constant hform hport => exact .constant hform (hs.constants hport)
  | block hform hport hsources =>
      exact .block hform (hport.extend hs.fragment) (hsources.imp fun _ _ => hs.lowered)
  | placeholder hform hopen =>
      obtain ⟨o, ho, rfl⟩ := hopen
      exact .placeholder hform (hs.placeholders o ho)
  | given hform => exact .given hform
  | ruled hother => exact .ruled hother

/-- The port of a placeholder is that of its block. -/
theorem Shows.opened {program : Program α} {s : Session α} {id : ExprId} {n : Node α} {q : PortId}
    (h : Shows program s id n q) (hkeeps : program.rules.Keeps n.form) {number : Nat}
    {label : String} (hform : n.form = .placeholder number label) :
    ∃ o ∈ s.placeholders, o.expr = id := by
  cases h with
  | ruled hother => exact absurd hkeeps hother
  | placeholder _ hopen => exact hopen
  | constant hform' => simp [hform] at hform'
  | block hform' => simp [hform, Form.primitive?] at hform'
  | given hform' => simp [hform] at hform'

/-- A port is where the value of a source comes from. -/
def SourceAt (s : Session α) (q : PortId) : Source α → Prop
  | .expression producer => s.lowered.get? producer = some q
  | .constant v => s.constants.get? v.canonical = some q
  | .port id => id = q

theorem SourceAt.grow {s s' : Session α} {q : PortId} {source : Source α}
    (h : s.SourceAt q source) (hs : s.Grows targets s') : s'.SourceAt q source := by
  cases source with
  | expression producer => exact hs.lowered h
  | constant v => exact hs.constants h
  | port id => exact h

/-- The first source that has been collected for a placeholder. -/
def resolver? (s : Session α) (id : ExprId) : Option (Resolver α) :=
  s.resolvers.find? fun r => r.targets.contains id

theorem Grows.resolver? {s s' : Session α} (h : s.Grows targets s') {id : ExprId} {r : Resolver α}
    (hr : s.resolver? id = some r) : s'.resolver? id = some r := by
  obtain ⟨more, hmore, -⟩ := h.resolvers
  unfold Session.resolver? at hr ⊢
  rw [hmore, List.find?_append, hr]
  rfl

/-- Sources for other placeholders change nothing. -/
theorem Grows.resolver?_eq {s s' : Session α} (h : s.Grows targets s') {id : ExprId}
    (hid : id ∉ targets) : s'.resolver? id = s.resolver? id := by
  obtain ⟨more, hmore, htargets⟩ := h.resolvers
  have hnone : more.find? (fun r => r.targets.contains id) = none := by
    rw [List.find?_eq_none]
    intro r hr hcontains
    exact hid (htargets r hr id (List.contains_iff_mem.mp hcontains))
  unfold Session.resolver?
  rw [hmore, List.find?_append, hnone, Option.or_none]

omit [Scalar α] in
/-- A session keeps account of its placeholders. -/
structure Orderly (program : Program α) (s : Session α) : Prop where
  wellFormed : s.fragment.WellFormed
  /-- A placeholder has a block that passes a value on. -/
  opened : ∀ o ∈ s.placeholders, ∃ n q, program.pool.get? o.expr = some n ∧
    n.form = .placeholder o.number o.label ∧ s.lowered.get? o.expr = some q ∧
    s.fragment.Passes o.input q n.kind
  inputs : (s.placeholders.map (·.input)).Nodup
  waiting : ∀ o ∈ s.placeholders, o.resolved = false → s.fragment.producer? o.input = none

/-- A session keeps account of its ports and of its placeholders. -/
structure Wired (program : Program α) (s : Session α) : Prop extends Orderly program s where
  constants : ∀ {c : Value α} {q : PortId}, s.constants.get? c = some q →
    ∃ v, v.canonical = c ∧ s.fragment.Makes q (.constant v) [] v.kind
  entries : ∀ {id : ExprId} {q : PortId}, s.lowered.get? id = some q →
    ∃ n, program.pool.get? id = some n ∧ Shows program s id n q
  founded : ∀ {id : ExprId} {q : PortId}, s.lowered.get? id = some q → program.Founded id
  settled : ∀ o ∈ s.placeholders, o.resolved = true → ∃ r source,
    s.resolver? o.expr = some r ∧ s.SourceAt source r.source ∧
    s.fragment.producer? o.input = some source

omit [Scalar α] in
theorem orderly_empty (program : Program α) : Orderly program (empty : Session α) where
  wellFormed := Fragment.wellFormed_empty
  opened := by simp [empty]
  inputs := by simp [empty]
  waiting := by simp [empty]

theorem wired_empty (program : Program α) : Wired program (empty : Session α) where
  toOrderly := orderly_empty program
  constants h := by simp [empty, Table.get?] at h
  entries h := by simp [empty, Table.get?] at h
  founded h := by simp [empty, Table.get?] at h
  settled := by simp [empty]

variable {program : Program α} {s s' : Session α}

/-! ### Growing -/

omit [Scalar α] in
/-- A placeholder stays open in a larger session that keeps its entry. -/
theorem Orderly.opened_grow (h : Orderly program s) (hfragment : s.fragment.Extends s'.fragment)
    {o : OpenPlaceholder} (ho : o ∈ s.placeholders)
    (hentry : ∀ {q : PortId}, s.lowered.get? o.expr = some q → s'.lowered.get? o.expr = some q) :
    ∃ n q, program.pool.get? o.expr = some n ∧ n.form = .placeholder o.number o.label ∧
      s'.lowered.get? o.expr = some q ∧ s'.fragment.Passes o.input q n.kind := by
  obtain ⟨n, q, hn, hform, hq, hpasses⟩ := h.opened o ho
  exact ⟨n, q, hn, hform, hentry hq, hpasses.extend hfragment⟩

omit [Scalar α] in
theorem Orderly.input_port (h : Orderly program s) {o : OpenPlaceholder}
    (ho : o ∈ s.placeholders) :
    ∃ port, s.fragment.ports[o.input]? = some port ∧ port.direction = .input := by
  obtain ⟨n, q, -, -, -, hpasses⟩ := h.opened o ho
  exact hpasses.input h.wellFormed

omit [Scalar α] in
/-- A larger session with the same placeholders, whose inputs stay open. -/
theorem Orderly.grow (h : Orderly program s) (hfragment : s.fragment.Extends s'.fragment)
    (hwell : s'.fragment.WellFormed) (hspares : s.fragment.Spares s'.fragment)
    (hplaceholders : s'.placeholders = s.placeholders)
    (hentries : ∀ o ∈ s.placeholders, ∀ {q : PortId}, s.lowered.get? o.expr = some q →
      s'.lowered.get? o.expr = some q) : Orderly program s' where
  wellFormed := hwell
  opened o ho := by
    rw [hplaceholders] at ho
    exact h.opened_grow hfragment ho (hentries o ho)
  inputs := hplaceholders ▸ h.inputs
  waiting := by
    intro o ho hresolved
    rw [hplaceholders] at ho
    obtain ⟨port, hport, -⟩ := h.input_port ho
    exact hspares _ _ hport (h.waiting o ho hresolved)

theorem Wired.settled_grow (h : Wired program s) (hs : s.Grows targets s') {o : OpenPlaceholder}
    (ho : o ∈ s.placeholders) (hresolved : o.resolved = true) : ∃ r source,
      s'.resolver? o.expr = some r ∧ s'.SourceAt source r.source ∧
      s'.fragment.producer? o.input = some source := by
  obtain ⟨r, source, hr, hsource, hproducer⟩ := h.settled o ho hresolved
  exact ⟨r, source, hs.resolver? hr, hsource.grow hs, hs.fragment.producer? hproducer⟩

/-- A larger session with the same placeholders, if what is new in it is
accounted for. -/
theorem Wired.grow (h : Wired program s) (hs : s.Grows targets s')
    (hwell : s'.fragment.WellFormed) (hspares : s.fragment.Spares s'.fragment)
    (hplaceholders : s'.placeholders = s.placeholders)
    (hconstants : ∀ {c : Value α} {q : PortId}, s'.constants.get? c = some q →
      s.constants.get? c = some q ∨
        ∃ v, v.canonical = c ∧ s'.fragment.Makes q (.constant v) [] v.kind)
    (hentries : ∀ {id : ExprId} {q : PortId}, s'.lowered.get? id = some q →
      s.lowered.get? id = some q ∨ program.Founded id ∧
        ∃ n, program.pool.get? id = some n ∧ Shows program s' id n q) :
    Wired program s' where
  toOrderly := h.toOrderly.grow hs.fragment hwell hspares hplaceholders fun _ _ => hs.lowered
  constants := by
    intro c q hq
    rcases hconstants hq with hold | hnew
    · obtain ⟨v, hv, hmakes⟩ := h.constants hold
      exact ⟨v, hv, hmakes.extend hs.fragment⟩
    · exact hnew
  entries := by
    intro id q hq
    rcases hentries hq with hold | hnew
    · obtain ⟨n, hn, hshows⟩ := h.entries hold
      exact ⟨n, hn, hshows.grow hs⟩
    · exact hnew.2
  founded hq := (hentries hq).elim h.founded And.left
  settled o ho := h.settled_grow hs (hplaceholders ▸ ho)

/-- A step keeps a session wired and lets it grow. -/
def Steps (program : Program α) (targets : List ExprId) (s s' : Session α) : Prop :=
  Wired program s → Wired program s' ∧ s.Grows targets s'

theorem Steps.trans {s₁ s₂ s₃ : Session α} (h₁ : Steps program targets s₁ s₂)
    (h₂ : Steps program targets s₂ s₃) : Steps program targets s₁ s₃ := by
  intro h
  obtain ⟨hs₂, hgrows₂⟩ := h₁ h
  obtain ⟨hs₃, hgrows₃⟩ := h₂ hs₂
  exact ⟨hs₃, hgrows₂.trans hgrows₃⟩

/-! ### Blocks and constants -/

/-- A larger fragment that leaves open inputs open. -/
theorem steps_withFragment {f : Fragment α} (hextends : s.fragment.Extends f)
    (hwell : s.fragment.WellFormed → f.WellFormed) (hspares : s.fragment.Spares f) :
    Steps program targets s { s with fragment := f } := by
  intro h
  have hgrows : s.Grows targets { s with fragment := f } :=
    (extends_withFragment hextends).grows List.prefix_rfl rfl
  exact ⟨h.grow hgrows (hwell h.wellFormed) hspares rfl Or.inl Or.inl, hgrows⟩

theorem steps_constPort {v : Value α} {q : PortId} (hrun : Session.constPort v s = .ok q s') :
    Steps program targets s s' := by
  intro h
  have hextends := constPort_extends h.wellFormed hrun
  rcases constPort_cases h.wellFormed hrun with ⟨-, rfl⟩ | ⟨-, f, hadded, rfl⟩
  · exact ⟨h, Grows.refl _⟩
  · have hgrows : s.Grows targets
        { s with fragment := f, constants := s.constants.insert v.canonical q } :=
      hextends.grows List.prefix_rfl rfl
    refine ⟨h.grow hgrows hadded.valid hadded.spares rfl ?_ Or.inl, hgrows⟩
    intro c r hr
    rcases Table.get?_insert_cases hr with ⟨rfl, rfl⟩ | hold
    · exact Or.inr ⟨v, rfl, hadded.makes⟩
    · exact Or.inl hold

theorem stepwise_steps (program : Program α) (targets : List ExprId) :
    Stepwise (Steps program targets) where
  refl s h := ⟨h, Grows.refl s⟩
  trans := Steps.trans
  add := by
    intro primitive inputs kind s s' q hrun h
    obtain ⟨f, kinds, hadded, rfl⟩ := add_added h.wellFormed hrun
    exact steps_withFragment hadded.extends (fun _ => hadded.valid) hadded.spares h
  constPort _ _ _ _ hrun := steps_constPort hrun

/-! ### Expressions -/

/-- An expression may be entered with a port that shows it. -/
theorem Wired.entered (h : Wired program s) {id : ExprId} {n : Node α} {q : PortId}
    (hfresh : s.lowered.get? id = none) (hn : program.pool.get? id = some n)
    (hid : program.Founded id) (hshows : Shows program s id n q) :
    Wired program (s.entered id q) ∧ s.Grows targets (s.entered id q) := by
  have hgrows : s.Grows targets (s.entered id q) :=
    (extends_entered hfresh).grows List.prefix_rfl rfl
  refine ⟨h.grow hgrows h.wellFormed (fun _ _ _ hopen => hopen) rfl Or.inl ?_, hgrows⟩
  intro j r hj
  rcases Table.get?_insert_cases hj with ⟨rfl, rfl⟩ | hold
  · exact Or.inr ⟨hid, n, hn, hshows.grow hgrows⟩
  · exact Or.inl hold

/-- Opening and entering a placeholder. -/
theorem Orderly.openPlaceholder (h : Orderly program s) {id : ExprId} {n : Node α} {number : Nat}
    {label : String} {q : PortId} (hfresh : s.lowered.get? id = none)
    (hn : program.pool.get? id = some n) (hform : n.form = .placeholder number label)
    (hrun : Session.openPlaceholder program.pool id s = .ok q s') :
    Orderly program (s'.entered id q) := by
  obtain ⟨hfits, rfl, rfl⟩ := openPlaceholder_eq_ok hn hform hrun
  let f := s.fragment.withBlock .identity [n.kind] (some n.kind)
  let input := s.fragment.ports.length
  let o : OpenPlaceholder := ⟨id, number, label, n.kind, input, false⟩
  have hlt : ∀ o' ∈ s.placeholders, o'.input < input := by
    intro o' ho'
    obtain ⟨port, hport, -⟩ := h.input_port ho'
    exact (List.getElem?_eq_some_iff.mp hport).1
  have hpasses : f.Passes input (input + 1) n.kind :=
    ⟨_, _, Fragment.withBlock_block, rfl, rfl, rfl, Fragment.withBlock_output⟩
  refine ⟨h.wellFormed.withBlock hfits, ?_, ?_, ?_⟩
  · intro o' ho'
    rcases List.mem_append.mp ho' with hold | hnew
    · exact h.opened_grow Fragment.withBlock_extends hold (extends_entered hfresh).lowered
    · obtain rfl := List.mem_singleton.mp hnew
      exact ⟨n, _, hn, hform, Table.get?_insert_self _ _ _, hpasses⟩
  · show ((s.placeholders ++ [o]).map (·.input)).Nodup
    rw [List.map_append, List.nodup_append]
    refine ⟨h.inputs, by simp, ?_⟩
    rintro a ha b hb rfl
    obtain rfl : a = input := List.mem_singleton.mp hb
    obtain ⟨o', ho', heq⟩ := List.mem_map.mp ha
    exact absurd (hlt o' ho') (heq ▸ Nat.lt_irrefl _)
  · intro o' ho' hresolved
    rcases List.mem_append.mp ho' with hold | hnew
    · obtain ⟨port, hport, -⟩ := h.input_port hold
      have hspares : s.fragment.Spares f :=
        Fragment.spares_of_wires (List.append_nil _).symm (by simp)
      exact hspares _ _ hport (h.waiting o' hold hresolved)
    · obtain rfl := List.mem_singleton.mp hnew
      exact h.wellFormed.producer?_withBlock hfits (Nat.le_refl _)

theorem Wired.openPlaceholder (h : Wired program s) {id : ExprId}
    {n : Node α} {number : Nat} {label : String} {q : PortId}
    (hfresh : s.lowered.get? id = none) (hn : program.pool.get? id = some n)
    (hid : program.Founded id) (hform : n.form = .placeholder number label)
    (hrun : Session.openPlaceholder program.pool id s = .ok q s') :
    Wired program (s'.entered id q) ∧ s.Grows targets (s'.entered id q) := by
  have horderly := h.toOrderly.openPlaceholder hfresh hn hform hrun
  obtain ⟨-, rfl, rfl⟩ := openPlaceholder_eq_ok hn hform hrun
  let o : OpenPlaceholder := ⟨id, number, label, n.kind, s.fragment.ports.length, false⟩
  let t : Session α := Session.entered { s with
    fragment := s.fragment.withBlock .identity [n.kind] (some n.kind)
    placeholders := s.placeholders ++ [o] } id (s.fragment.ports.length + 1)
  have hgrows : s.Grows targets t :=
    Extends.grows ⟨Fragment.withBlock_extends, (extends_entered hfresh).lowered, fun hc => hc⟩
      (List.prefix_append _ _) rfl
  refine ⟨⟨horderly, ?_, ?_, ?_, ?_⟩, hgrows⟩
  · intro c r hr
    obtain ⟨v, hv, hmakes⟩ := h.constants hr
    exact ⟨v, hv, hmakes.extend hgrows.fragment⟩
  · intro j r hj
    rcases Table.get?_insert_cases hj with ⟨rfl, -⟩ | hold
    · exact ⟨n, hn, .placeholder hform ⟨o, List.mem_append_right _ List.mem_cons_self, rfl⟩⟩
    · obtain ⟨m, hm, hshown⟩ := h.entries hold
      exact ⟨m, hm, hshown.grow hgrows⟩
  · intro j r hj
    rcases Table.get?_insert_cases hj with ⟨rfl, -⟩ | hold
    · exact hid
    · exact h.founded hold
  · intro o' ho' hresolved
    rcases List.mem_append.mp ho' with hold | hnew
    · exact h.settled_grow hgrows hold hresolved
    · obtain rfl := List.mem_singleton.mp hnew
      cases hresolved

/-- Lowering and entering a node the library's way keeps a session wired. -/
theorem LoweredBy.wired (h : Wired program s) {id : ExprId}
    {n : Node α} {inputs : List PortId} {q : PortId} (hn : program.pool.get? id = some n)
    (hid : program.Founded id) (hfresh : s.lowered.get? id = none)
    (hinputs : List.Forall₂ (fun d q => s.lowered.get? d = some q) n.dependencies inputs)
    (hby : LoweredBy program id n inputs s q s') :
    Wired program (s'.entered id q) ∧ s.Grows targets (s'.entered id q) := by
  have hlowered := hby.lowered
  -- A node with a port that shows it is entered.
  have henter : Steps program targets s s' → Shows program s' id n q →
      Wired program (s'.entered id q) ∧ s.Grows targets (s'.entered id q) := by
    intro hsteps hshows
    obtain ⟨hs', hgrows⟩ := hsteps h
    obtain ⟨hentered, hgrows'⟩ := hs'.entered (by rw [hlowered]; exact hfresh) hn hid hshows
    exact ⟨hentered, hgrows.trans hgrows'⟩
  have hstepwise := stepwise_steps program targets
  cases hby with
  | constant hform hrun =>
      exact henter (hstepwise.constPort _ _ _ _ hrun)
        (.constant hform (constPort_entered h.wellFormed hrun))
  | parameter hform _ _ hrun =>
      exact henter (hstepwise.constPort _ _ _ _ hrun) (.given (Or.inl ⟨_, hform⟩))
  | relation hform hrun =>
      exact henter (hstepwise.lowerRelation _ _ _ _ _ _ hrun)
        (.given (Or.inr ⟨_, _, hform⟩))
  | placeholder hform hrun => exact h.openPlaceholder hfresh hn hid hform hrun
  | block hform hrun =>
      obtain ⟨f, kinds, hadded, rfl⟩ := add_added h.wellFormed hrun
      exact henter (hstepwise.add _ _ _ _ _ _ hrun) (.block hform hadded.makes hinputs)

/-- **The step of lowering.**  Lowering and entering a node by any rule keeps a
session wired. -/
theorem RuledBy.wired (h : Wired program s) {id : ExprId}
    {n : Node α} {inputs : List PortId} {q : PortId} (hn : program.pool.get? id = some n)
    (hid : program.Founded id) (hfresh : s.lowered.get? id = none)
    (hinputs : List.Forall₂ (fun d q => s.lowered.get? d = some q) n.dependencies inputs)
    (hby : RuledBy program id n inputs s q s') :
    Wired program (s'.entered id q) ∧ s.Grows targets (s'.entered id q) := by
  have hlowered := hby.lowered
  have henter : Steps program targets s s' → ¬ program.rules.Keeps n.form →
      Wired program (s'.entered id q) ∧ s.Grows targets (s'.entered id q) := by
    intro hsteps hother
    obtain ⟨hs', hgrows⟩ := hsteps h
    obtain ⟨hentered, hgrows'⟩ :=
      hs'.entered (by rw [hlowered]; exact hfresh) hn hid (.ruled hother)
    exact ⟨hentered, hgrows.trans hgrows'⟩
  have hstepwise := stepwise_steps program targets
  cases hby with
  | library hby => exact hby.wired h hn hid hfresh hinputs
  | block hother hrun => exact henter (hstepwise.add _ _ _ _ _ _ hrun) hother
  | constant hother hrun => exact henter (hstepwise.constPort _ _ _ _ hrun) hother
  | existing hother hsame => exact henter (hsame ▸ hstepwise.refl s) hother

/-- **Lowering an expression** keeps a session wired, whatever the rules are. -/
theorem Wired.lower (h : Wired program s) {id : ExprId} {q : PortId}
    (hrun : Session.lower program id s = .ok q s') :
    (Wired program s' ∧ s.Grows targets s') ∧ s'.lowered.get? id = some q := by
  have hout : Descent program (fun t => Wired program t ∧ s.Grows targets t) id s q s' := by
    refine lowerWithin_descends (fun ht => ht.1.founded) ?_ ⟨h, Grows.refl s⟩ hrun
    rintro j n inputs s₁ s₂ r hn hj hfresh ⟨hs₁, hgrows₁⟩ hinputs hby
    obtain ⟨hs₂, hgrows₂⟩ := hby.wired hs₁ hn hj hfresh hinputs
    exact ⟨hs₂, hgrows₁.trans hgrows₂⟩
  exact ⟨hout.holds, hout.entry⟩

end Session

end SignalNet
