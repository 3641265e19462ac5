import SignalNet.Proofs.Compile.Calls
import SignalNet.Proofs.Compile.Rounds

/-!
# Placeholders are resolved once

A session in which expressions have been lowered and sources have been collected
comes to its end round by round.  This holds for all rules that open the nodes of
placeholders, and after calls that have failed.

There are three ingredients.

1.  Whatever is lowered, blocks and constants are added, and placeholders that
    wait (`Session.attends_lowerWithin`).  A rule may add any block, so the
    inputs of the placeholders must stay open where its wires fail half-way
    (`Fragment.sparing_addWired`).
2.  What has been lowered keeps its port, so the source of a placeholder stays
    where it was (`Session.Tended.enlarge`).
3.  With this the rounds of `Session.Resolving` apply (`Session.tended_resolving`).

`Session.placeholders_resolved_once` is the result.
-/

namespace SignalNet

open Computing

/-! ### Open inputs -/

namespace Fragment

variable {α : Type}

/-- A computation only adds to a fragment and leaves its open inputs open, also
where it stops. -/
abbrev Sparing {β : Type} (x : Wiring α β) : Prop :=
  Keeps (fun f g => f.Extends g ∧ f.Spares g) x

theorem spares_of_connections {f g : Fragment α} (h : g.connections = f.connections) :
    f.Spares g :=
  spares_of_wires (h.trans (List.append_nil _).symm) (by simp)

theorem Sparing.bind {β γ : Type} {x : Wiring α β} {k : β → Wiring α γ} (hx : Sparing x)
    (hk : ∀ b, Sparing (k b)) : Sparing (x >>= k) := by
  refine keeps_bind ?_ hx hk
  rintro f g h ⟨hfg, hg⟩ ⟨hgh, hh⟩
  exact ⟨hfg.trans hgh, fun q port hport hopen => hh q port (hfg.port hport) (hg q port hport hopen)⟩

theorem sparing_ofExcept {β : Type} (x : Except NetError β) :
    Sparing (Wiring.ofExcept x : Wiring α β) := by
  cases x with
  | ok b => exact fun f => ⟨Extends.refl f, spares_of_connections rfl⟩
  | error e => exact fun f => ⟨Extends.refl f, spares_of_connections rfl⟩

theorem sparing_addBlock (primitive : Primitive α) (inputs : List Kind) (output : Option Kind) :
    Sparing (addBlock primitive inputs output) := by
  intro f
  refine ⟨(maintains_addBlock primitive inputs output f).1, ?_⟩
  cases hadd : addBlock primitive inputs output f with
  | ok id g =>
      obtain ⟨-, -, rfl⟩ := addBlock_eq_ok.mp hadd
      exact spares_of_connections rfl
  | error e g =>
      obtain rfl := addBlock_eq_error hadd
      exact spares_of_connections rfl

theorem sparing_addSource (primitive : Primitive α) (kind : Kind) :
    Sparing (addSource primitive kind) :=
  (sparing_addBlock primitive [] (some kind)).bind fun _ =>
    keeps_get_bind fun f => sparing_ofExcept _ f

/-- Wires are added that lead to ports from a bound on. -/
def WiresBeyond (bound : Nat) (f g : Fragment α) : Prop :=
  ∃ wires, g.connections = f.connections ++ wires ∧ ∀ c ∈ wires, bound ≤ c.target

theorem WiresBeyond.refl (bound : Nat) (f : Fragment α) : WiresBeyond bound f f :=
  ⟨[], (List.append_nil _).symm, by simp⟩

theorem WiresBeyond.trans {bound : Nat} (f g h : Fragment α) (hfg : WiresBeyond bound f g)
    (hgh : WiresBeyond bound g h) : WiresBeyond bound f h := by
  obtain ⟨first, hfirst, hold⟩ := hfg
  obtain ⟨second, hsecond, hnew⟩ := hgh
  refine ⟨first ++ second, by rw [hsecond, hfirst, List.append_assoc], ?_⟩
  intro c hc
  rcases List.mem_append.mp hc with hc | hc
  · exact hold c hc
  · exact hnew c hc

theorem connectAll_wiresBeyond {bound : Nat} {pairs : List (PortId × PortId)}
    (hpairs : ∀ pair ∈ pairs, bound ≤ pair.2) :
    Keeps (WiresBeyond bound) (connectAll pairs : Wiring α Unit) := by
  induction pairs with
  | nil => exact keeps_pure (WiresBeyond.refl bound) ()
  | cons pair rest ih =>
      refine keeps_bind WiresBeyond.trans ?_ fun _ =>
        ih fun pair hpair => hpairs pair (List.mem_cons_of_mem _ hpair)
      intro f
      cases hrun : connect pair.1 pair.2 f with
      | ok u g =>
          obtain ⟨-, -, rfl⟩ := connect_eq_ok.mp hrun
          refine ⟨_, rfl, fun c hc => ?_⟩
          obtain rfl := List.mem_singleton.mp hc
          exact hpairs pair List.mem_cons_self
      | error e g =>
          obtain rfl := connect_eq_error hrun
          exact WiresBeyond.refl bound _

/-- The wires of a new block lead to its own inputs, also where one of them
fails. -/
theorem sparing_addWired (primitive : Primitive α) (inputs : List PortId) (output : Kind) :
    Sparing (addWired primitive inputs output) := by
  intro f
  refine ⟨(maintains_addWired primitive inputs output f).1, ?_⟩
  unfold addWired
  rw [get_bind]
  cases hkinds : inputs.mapM f.kindOf with
  | error e => exact spares_of_connections rfl
  | ok kinds =>
      rw [bind_of_ok (show Wiring.ofExcept (.ok kinds) f = .ok kinds f from rfl)]
      cases hadd : addBlock primitive kinds (some output) f with
      | error e g =>
          obtain rfl := addBlock_eq_error hadd
          rw [bind_of_error hadd]
          exact spares_of_connections rfl
      | ok id g =>
          obtain ⟨-, rfl, rfl⟩ := addBlock_eq_ok.mp hadd
          let blk : Block α := ⟨primitive, List.range' f.ports.length kinds.length,
            some (f.ports.length + kinds.length)⟩
          have hblock : (f.withBlock primitive kinds (some output)).block f.blocks.length =
              .ok blk := block_eq_ok.mpr withBlock_block
          rw [bind_of_ok hadd, get_bind, hblock]
          have hwires : Keeps (WiresBeyond f.ports.length) (do
              connectAll (inputs.zip blk.inputs)
              Wiring.ofExcept ((← get).outputPort f.blocks.length) : Wiring α PortId) := by
            refine keeps_bind WiresBeyond.trans (connectAll_wiresBeyond ?_) fun _ =>
              keeps_get_bind fun g => ?_
            · intro pair hpair
              exact (List.mem_range'_1.mp (List.of_mem_zip hpair).2).1
            · cases g.outputPort f.blocks.length <;> exact WiresBeyond.refl _ g
          obtain ⟨wires, heq, hbound⟩ := hwires (f.withBlock primitive kinds (some output))
          exact spares_of_wires heq fun c hc => List.getElem?_eq_none (hbound c hc)

/-- All calls on a fragment leave its open inputs open, except for the one that
wires two ports. -/
theorem Call.run_sparing {c : Call α} (hc : ∀ source target, c ≠ .connect source target) :
    Sparing c.run := by
  have hdiscard : ∀ {β : Type} {x : Wiring α β}, Sparing x → Sparing (discard x) :=
    fun hx => hx.bind fun _ f => ⟨Extends.refl f, spares_of_connections rfl⟩
  cases c with
  | addBlock primitive inputs output => exact hdiscard (sparing_addBlock primitive inputs output)
  | addSource primitive kind => exact hdiscard (sparing_addSource primitive kind)
  | addWired primitive inputs output => exact hdiscard (sparing_addWired primitive inputs output)
  | connect source target => exact absurd rfl (hc source target)
  | expose name q =>
      intro f
      refine ⟨(maintains_expose name q f).1, ?_⟩
      cases hexpose : Fragment.expose name q f with
      | ok u g =>
          obtain ⟨-, -, -, -, -, -, hconnections, -⟩ := expose_eq_ok hexpose
          exact spares_of_connections (by simpa [Call.run, hexpose] using hconnections)
      | error e g =>
          obtain rfl := expose_eq_error hexpose
          exact spares_of_connections (by simp [Call.run, hexpose])
  | register signal q => exact fun f => ⟨withSignals_extends f _, spares_of_connections rfl⟩

end Fragment

/-- The rule for the nodes of placeholders, if there is one, opens them. -/
def Program.OpensPlaceholders {α : Type} (program : Program α) : Prop :=
  ∀ rule, Table.get? program.rules "placeholder" = some rule →
    rule = .standard ∨ rule = .placeholder

theorem Program.OpensPlaceholders.of_rules {α : Type} {program : Program α}
    (h : program.rules = .standard) : program.OpensPlaceholders := by
  intro rule hrule
  have hlookup : Rules.lookup? Rules.standard ["placeholder"] = some ("placeholder", rule) := by
    simp [Rules.lookup?, ← h, hrule]
  exact Or.inl (Rules.lookup?_standard hlookup)

namespace Session

open Lowering

variable {α : Type} [Scalar α] {program : Program α} {s s' : Session α} {id : ExprId}
  {n : Node α} {q : PortId}

/-! ### What lowering leaves -/

/-- Blocks and constants have been added, and placeholders that wait. -/
structure Enlarges (s s' : Session α) : Prop extends Awaits s s' where
  fragment : s.fragment.Extends s'.fragment
  constants : ∀ {c : Value α} {q : PortId}, s.constants.get? c = some q →
    s'.constants.get? c = some q

theorem Enlarges.refl (s : Session α) : s.Enlarges s :=
  ⟨.refl s, .refl s.fragment, fun hq => hq⟩

theorem Enlarges.trans {s₁ s₂ s₃ : Session α} (h₁ : s₁.Enlarges s₂) (h₂ : s₂.Enlarges s₃) :
    s₁.Enlarges s₃ :=
  ⟨h₁.toAwaits.trans h₂.toAwaits, h₁.fragment.trans h₂.fragment,
    fun hq => h₂.constants (h₁.constants hq)⟩

omit [Scalar α] in
/-- The placeholders of a session are in order, and all that have been lowered
are among them. -/
structure Attended (program : Program α) (s : Session α) : Prop extends Orderly program s where
  entries : ∀ {id : ExprId} {n : Node α} {q : PortId}, s.lowered.get? id = some q →
    program.pool.get? id = some n → n.form.isPlaceholder = true →
    ∃ o ∈ s.placeholders, o.expr = id

/-- A step keeps account of placeholders and only adds to the session. -/
def Attends (program : Program α) (s s' : Session α) : Prop :=
  Attended program s → Attended program s' ∧ s.Enlarges s'

theorem Attends.refl (s : Session α) : Attends program s s :=
  fun h => ⟨h, .refl s⟩

theorem Attends.trans {s₁ s₂ s₃ : Session α} (h₁ : Attends program s₁ s₂)
    (h₂ : Attends program s₂ s₃) : Attends program s₁ s₃ := by
  intro h
  obtain ⟨hs₂, henlarges₂⟩ := h₁ h
  obtain ⟨hs₃, henlarges₃⟩ := h₂ hs₂
  exact ⟨hs₃, henlarges₂.trans henlarges₃⟩

omit [Scalar α] in
/-- The same entries and placeholders in a larger fragment. -/
theorem Attended.grow (h : Attended program s) (hfragment : s.fragment.Extends s'.fragment)
    (hwell : s'.fragment.WellFormed) (hspares : s.fragment.Spares s'.fragment)
    (hplaceholders : s'.placeholders = s.placeholders) (hlowered : s'.lowered = s.lowered) :
    Attended program s' where
  toOrderly := h.toOrderly.grow hfragment hwell hspares hplaceholders
    fun _ _ => by rw [hlowered]; exact id
  entries hq hn hform := by
    rw [hplaceholders]
    exact h.entries (hlowered ▸ hq) hn hform

theorem attends_wire {β : Type} {call : Wiring α β} (hmaintains : Fragment.Maintains call)
    (hsparing : Fragment.Sparing call) : Keeps (Attends program) (wire call) := by
  have hgrow : ∀ {s : Session α} {f : Fragment α}, s.fragment.Extends f →
      (s.fragment.WellFormed → f.WellFormed) → s.fragment.Spares f →
      Attends program s { s with fragment := f } := fun hextends hwell hspares h =>
    ⟨h.grow hextends (hwell h.wellFormed) hspares rfl rfl,
      awaits_of_eq rfl rfl, hextends, fun hq => hq⟩
  intro s
  obtain ⟨hextends, hwell⟩ := hmaintains s.fragment
  obtain ⟨-, hspares⟩ := hsparing s.fragment
  unfold wire
  cases hrun : call s.fragment with
  | ok b f =>
      rw [hrun] at hextends hwell hspares
      exact hgrow hextends hwell hspares
  | error e f =>
      rw [hrun] at hextends hwell hspares
      exact hgrow hextends hwell hspares

theorem attends_constPort (v : Value α) : Keeps (Attends program) (constPort v) := by
  intro s h
  obtain ⟨q, s', hrun⟩ := constPort_total v s
  rw [hrun]
  have hextends := constPort_extends h.wellFormed hrun
  rcases constPort_cases h.wellFormed hrun with ⟨-, rfl⟩ | ⟨-, f, hadded, rfl⟩
  · exact Attends.refl _ h
  · exact ⟨h.grow hadded.extends hadded.valid hadded.spares rfl rfl, awaits_of_eq rfl rfl,
      hextends.fragment, hextends.constants⟩

theorem attends_laying (program : Program α) : Laying (Attends program) where
  refl := Attends.refl
  trans _ _ _ h₁ h₂ := h₁.trans h₂
  add primitive inputs kind := by
    unfold Session.add
    split
    · exact attends_wire (Fragment.maintains_addSource _ _) (Fragment.sparing_addSource _ _)
    · exact attends_wire (Fragment.maintains_addWired _ _ _) (Fragment.sparing_addWired _ _ _)
  constPort := attends_constPort

/-! ### The nodes of placeholders -/

omit [Scalar α] in
/-- A placeholder can always be opened. -/
theorem openPlaceholder_total {number : Nat} {label : String} (hn : program.pool.get? id = some n)
    (hform : n.form = .placeholder number label) (s : Session α) :
    ∃ q s', openPlaceholder program.pool id s = .ok q s' := by
  let f := s.fragment.withBlock .identity [n.kind] (some n.kind)
  have hfits : Fragment.Fits (.identity : Primitive α) [n.kind] (some n.kind) :=
    ⟨by simp [Primitive.arity?], rfl⟩
  have hadd : wire (Fragment.addBlock .identity [n.kind] (some n.kind)) s =
      .ok s.fragment.blocks.length { s with fragment := f } :=
    wire_eq_ok.mpr ⟨f, Fragment.addBlock_eq_ok.mpr ⟨hfits, rfl, rfl⟩, rfl⟩
  have hblock : f.block s.fragment.blocks.length =
      .ok ⟨.identity, [s.fragment.ports.length], some (s.fragment.ports.length + 1)⟩ :=
    Fragment.block_eq_ok.mpr Fragment.withBlock_block
  have hout : f.outputPort s.fragment.blocks.length = .ok (s.fragment.ports.length + 1) :=
    Fragment.outputPort_eq_ok.mpr ⟨_, Fragment.withBlock_block, rfl⟩
  unfold openPlaceholder
  rw [bind_of_ok (ofExpr_eq_ok.mpr ⟨Pool.node_eq_ok.mpr hn, rfl⟩)]
  simp only [hform]
  rw [bind_of_ok hadd, get_bind, bind_of_ok (ofNet_eq_ok.mpr ⟨hblock, rfl⟩), get_bind,
    bind_of_ok (ofNet_eq_ok.mpr ⟨hout, rfl⟩)]
  exact ⟨_, _, rfl⟩

omit [Scalar α] in
/-- A port of the right kind is entered. -/
theorem enter_of_kind {key : String} {port : PortId} (hkind : s.fragment.kindOf port = .ok n.kind) :
    enter id n key port s = .ok port (s.entered id port) := by
  unfold enter
  rw [get_bind, bind_of_ok (ofNet_eq_ok.mpr ⟨hkind, rfl⟩), if_pos rfl]
  rfl

/-- The nodes of placeholders are opened, if they have a rule. -/
theorem portOf_placeholder (hrules : program.OpensPlaceholders) {number : Nat} {label : String}
    (hform : n.form = .placeholder number label) (fuel : Nat) (id : ExprId) :
    (∃ e, portOf program fuel id n = throw e) ∨
      ∃ key, portOf program fuel id n = do return (key, ← openPlaceholder program.pool id) := by
  have hnone : n.dependencies = [] := by simp [Node.dependencies, hform, Form.dependencies]
  unfold portOf
  rw [hnone]
  cases hrule : Rules.lookup? program.rules n.form.keys with
  | none => exact Or.inl ⟨_, rfl⟩
  | some found =>
      obtain ⟨key, rule⟩ := found
      obtain ⟨hkey, hget⟩ := Rules.get?_of_lookup? hrule
      obtain rfl : key = "placeholder" := by simpa [hform, Form.keys, Form.typeName] using hkey
      refine Or.inr ⟨"placeholder", ?_⟩
      rcases hrules rule hget with rfl | rfl
      · simp only [applyRule, lowerStandard, hform]
        rfl
      · rfl

/-- Lowering the node of a placeholder. -/
theorem attends_placeholder (hrules : program.OpensPlaceholders) {number : Nat} {label : String}
    (hn : program.pool.get? id = some n) (hform : n.form = .placeholder number label)
    (hfresh : s.lowered.get? id = none) (fuel : Nat) :
    Attends program s (finalState ((do
      let found ← portOf program fuel id n
      enter id n found.1 found.2) s)) := by
  rcases portOf_placeholder hrules hform fuel id with ⟨e, hthrow⟩ | ⟨key, hopen⟩
  · rw [hthrow]
    exact Attends.refl s
  · intro h
    obtain ⟨q, s₁, hrun⟩ := openPlaceholder_total hn hform s
    have horderly := h.toOrderly.openPlaceholder hfresh hn hform hrun
    have hport : portOf program fuel id n s = .ok (key, q) s₁ := by
      rw [hopen, bind_of_ok hrun]
      rfl
    obtain ⟨-, rfl, rfl⟩ := openPlaceholder_eq_ok hn hform hrun
    rw [bind_of_ok hport, enter_of_kind (by
      exact Fragment.kindOf_eq_ok.mpr ⟨_, Fragment.withBlock_output, rfl⟩)]
    refine ⟨⟨horderly, ?_⟩, ⟨⟨rfl, _, rfl, by simp⟩, Fragment.withBlock_extends, fun hq => hq⟩⟩
    intro j m r hj hm hplaceholder
    rcases Table.get?_insert_cases hj with ⟨rfl, -⟩ | hold
    · exact ⟨_, List.mem_append_right _ List.mem_cons_self, rfl⟩
    · obtain ⟨o, ho, hexpr⟩ := h.entries hold hm hplaceholder
      exact ⟨o, List.mem_append_left _ ho, hexpr⟩

omit [Scalar α] in
theorem openPlaceholder_of_other (hn : program.pool.get? id = some n)
    (hform : n.form.isPlaceholder = false) (s : Session α) :
    ∃ e, openPlaceholder program.pool id s = .error e s := by
  unfold openPlaceholder
  rw [bind_of_ok (ofExpr_eq_ok.mpr ⟨Pool.node_eq_ok.mpr hn, rfl⟩)]
  cases hcase : n.form with
  | placeholder number label => simp [hcase, Form.isPlaceholder] at hform
  | _ => exact ⟨_, rfl⟩

omit [Scalar α] in
/-- Entering a node that is no placeholder. -/
theorem Attended.entered (h : Attended program s) (hn : program.pool.get? id = some n)
    (hform : n.form.isPlaceholder = false) (q : PortId) : Attended program (s.entered id q) where
  toOrderly := by
    refine h.toOrderly.grow (.refl _) h.wellFormed (fun _ _ _ hopen => hopen) rfl ?_
    intro o ho r hr
    obtain ⟨m, -, hm, hplaceholder, -⟩ := h.opened o ho
    have hne : o.expr ≠ id := by
      intro heq
      rw [heq, hn] at hm
      cases hm
      simp [hplaceholder, Form.isPlaceholder] at hform
    exact (Table.get?_insert_of_ne _ _ hne).trans hr
  entries := by
    intro j m r hj hm hplaceholder
    have hne : j ≠ id := by
      rintro rfl
      rw [hn] at hm
      cases hm
      rw [hform] at hplaceholder
      cases hplaceholder
    exact h.entries ((Table.get?_insert_of_ne _ _ hne).symm.trans hj) hm hplaceholder

/-- **Lowering any expression** keeps account of placeholders and only adds to
the session, also where it stops. -/
theorem attends_lowerWithin (hrules : program.OpensPlaceholders) (fuel : Nat) (id : ExprId) :
    Keeps (Attends program) (lowerWithin program fuel id) := by
  have hlaying := attends_laying program
  induction fuel generalizing id with
  | zero => exact hlaying.throw _
  | succ fuel ih =>
      intro s
      rw [lowerWithin_succ]
      cases hfresh : s.lowered.get? id with
      | some port => exact Attends.refl s
      | none =>
          cases hnode : program.pool.node id with
          | error e => exact Attends.refl s
          | ok n =>
              have hn := Pool.node_eq_ok.mp hnode
              show Attends program s (finalState ((do
                let found ← portOf program fuel id n
                enter id n found.1 found.2) s))
              cases hform : n.form.isPlaceholder with
              | true =>
                  cases hcase : n.form with
                  | placeholder number label => exact attends_placeholder hrules hn hcase hfresh fuel
                  | _ => simp [hcase, Form.isPlaceholder] at hform
              | false =>
                  have hopen : Keeps (Attends program) (openPlaceholder program.pool id) := by
                    intro t
                    obtain ⟨e, hrun⟩ := openPlaceholder_of_other hn hform t
                    rw [hrun]
                    exact Attends.refl t
                  refine hlaying.bind (hlaying.portOf ih hopen n) (fun found t => ?_) s
                  cases hrun : enter id n found.1 found.2 t with
                  | error e t' =>
                      obtain rfl := enter_eq_error hrun
                      exact Attends.refl _
                  | ok q t' =>
                      obtain ⟨-, -, rfl⟩ := enter_eq_ok hrun
                      exact fun h => ⟨h.entered hn hform _, awaits_of_eq rfl rfl, .refl _,
                        fun hq => hq⟩

/-! ### The sources of placeholders -/

/-- A session on its way to the end: its sources stay the same, and what has been
resolved is fed by its first source. -/
structure Tended (program : Program α) (resolvers : List (Resolver α)) (s : Session α) : Prop
    extends Attended program s where
  sources : s.resolvers = resolvers
  settled : ∀ o ∈ s.placeholders, o.resolved = true → ∃ r source,
    s.resolver? o.expr = some r ∧ s.SourceAt source r.source ∧
    s.fragment.producer? o.input = some source

variable {resolvers : List (Resolver α)}

theorem SourceAt.enlarge {source : Source α} (h : s.SourceAt q source) (hs : s.Enlarges s')
    (hretains : s.Retains s') : s'.SourceAt q source := by
  cases source with
  | expression producer => exact hretains producer q h
  | constant v => exact hs.constants h
  | port id => exact h

/-- What is lowered on the way changes nothing for what has been resolved. -/
theorem Tended.enlarge (h : Tended program resolvers s) (hattends : Attends program s s')
    (hretains : s.Retains s') : Tended program resolvers s' ∧ s.Awaits s' := by
  obtain ⟨hs', henlarges⟩ := hattends h.toAttended
  refine ⟨⟨hs', henlarges.resolvers.trans h.sources, ?_⟩, henlarges.toAwaits⟩
  intro o ho hresolved
  obtain ⟨r, source, hr, hsource, hproducer⟩ :=
    h.settled o (henlarges.resolved ho hresolved) hresolved
  refine ⟨r, source, ?_, hsource.enlarge henlarges hretains,
    henlarges.fragment.producer? hproducer⟩
  rw [resolver?, henlarges.resolvers]
  exact hr

/-- The port of a source is found where the source says. -/
theorem Tended.sourcePort (hrules : program.OpensPlaceholders) (h : Tended program resolvers s)
    {source : Source α} (hrun : Session.sourcePort program source s = .ok q s') :
    (Tended program resolvers s' ∧ s.Awaits s') ∧ s'.SourceAt q source := by
  -- What has been found is what the computation leaves.
  have hleaves : ∀ {R : Session α → Session α → Prop},
      Keeps R (Session.sourcePort program source) → R s s' := by
    intro R hkeeps
    have hs := hkeeps s
    rw [hrun] at hs
    exact hs
  cases source with
  | expression producer =>
      exact ⟨h.enlarge (hleaves (attends_lowerWithin hrules _ producer))
        (hleaves (retains_lowerWithin _ producer)), lower_entered hrun⟩
  | constant v =>
      exact ⟨h.enlarge (hleaves (attends_constPort v)) (hleaves (retains_steady.constPort v)),
        constPort_entered h.wellFormed hrun⟩
  | port id =>
      obtain ⟨rfl, rfl⟩ := pure_eq_ok.mp hrun
      exact ⟨⟨h, .refl _⟩, rfl⟩

/-- A placeholder is wired to its first source. -/
theorem Tended.resolve (hp : program.pool.WellFormed) (h : Tended program resolvers s)
    {p : OpenPlaceholder} (hmem : p ∈ s.placeholders) {r : Resolver α}
    (hr : s.resolver? p.expr = some r) (hsource : s.SourceAt q r.source) {u : Unit}
    (hrun : Session.resolve p.number q s = .ok u s') : Tended program resolvers s' := by
  have horderly := h.toOrderly.resolve hrun
  obtain ⟨p', hfind, -, -, rfl⟩ := resolve_eq_ok hrun
  rw [h.find?_number hp hmem] at hfind
  cases hfind
  refine ⟨⟨horderly, ?_⟩, h.sources, ?_⟩
  · intro j m r' hj hm hform
    obtain ⟨o, ho, rfl⟩ := h.entries hj hm hform
    exact mem_markResolved ho
  · intro o ho hresolved
    rcases markResolved_cases (h.find?_number hp hmem) h.inputs ho with rfl | ⟨hold, hne⟩
    · exact ⟨r, q, hr, hsource, horderly.wellFormed.producer?_eq_some_iff.mpr
        (List.mem_append_right _ List.mem_cons_self)⟩
    · obtain ⟨r', source, hr', hat, hproducer⟩ := h.settled o hold hresolved
      exact ⟨r', source, hr', hat, (Fragment.withWires_extends _ _).producer? hproducer⟩

omit [Scalar α] in
/-- A call leaves placeholders to the end of the session. -/
def Call.leavesOpen : Call α → Bool
  | .openPlaceholder _ | .resolve _ _ | .wire (.connect _ _) => false
  | _ => true

/-- No placeholder has been resolved. -/
structure Waits (program : Program α) (s : Session α) : Prop extends Attended program s where
  all : ∀ o ∈ s.placeholders, o.resolved = false

theorem Waits.attends (h : Waits program s) (hs : Attends program s s') : Waits program s' := by
  obtain ⟨hs', henlarges⟩ := hs h.toAttended
  refine ⟨hs', fun o ho => ?_⟩
  by_contra hresolved
  have hresolved := (Bool.not_eq_false _).mp hresolved
  rw [h.all o (henlarges.resolved ho hresolved)] at hresolved
  cases hresolved

theorem Waits.call (hrules : program.OpensPlaceholders) (h : Waits program s) {c : Call α}
    (hc : c.leavesOpen = true) : Waits program (finalState (c.run program s)) := by
  have hlaying := attends_laying program
  have hdiscard : ∀ {β : Type} {x : Lowering α β}, Keeps (Attends program) x →
      Keeps (Attends program) (discard x) :=
    fun hx => hlaying.bind hx fun _ => hlaying.pure _
  cases c with
  | lower id => exact h.attends (hdiscard (attends_lowerWithin hrules _ id) s)
  | constPort v => exact h.attends (hdiscard (attends_constPort v) s)
  | openPlaceholder id => cases hc
  | resolve number port => cases hc
  | addResolver r => exact ⟨⟨⟨h.wellFormed, h.opened, h.inputs, h.waiting⟩, h.entries⟩, h.all⟩
  | wire c =>
      refine h.attends (attends_wire c.run_maintains (Fragment.Call.run_sparing ?_) s)
      rintro source target rfl
      cases hc

theorem Waits.performAll (hrules : program.OpensPlaceholders) {calls : List (Call α)}
    (h : Waits program s) (hcalls : ∀ c ∈ calls, c.leavesOpen = true) :
    Waits program (performAll program calls s) := by
  induction calls generalizing s with
  | nil => exact h
  | cons c rest ih =>
      exact ih (h.call hrules (hcalls c List.mem_cons_self)) fun c hc =>
        hcalls c (List.mem_cons_of_mem _ hc)

end Session

/-! ### Two placeholders, one behind the other -/

/-- A sum whose first operand is its own last value and whose second operand is
another placeholder. -/
def Sample.chain : Program Float :=
  { pool := Pool.performAll [.placeholder "p" .double .global, .pre 0 (.double 0),
      .placeholder "q" .double .global, .binary .add 1 2] { folding := true }
    rules := .standard
    parameters := {}
    settings := .standard
    host := .offline }

/-- A constant stands for all placeholders. -/
def Sample.replaced : Program Float :=
  { pool := Pool.performAll [.placeholder "p" .double .global, .input "x" .double .global]
      { folding := true }
    rules := Rules.standard.insert "placeholder" (.constant (.double 1))
    parameters := {}
    settings := .standard
    host := .offline }

end SignalNet
