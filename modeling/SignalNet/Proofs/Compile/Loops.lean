import SignalNet.Proofs.Compile.Wired

/-!
# How a network closes its loops

All steps of a session keep it wired (`Session.closed_steps`), and so does its
end, which wires placeholders to their sources round by round.  A fragment
that is complete has no open inputs, so in the end every placeholder passes on
what its first source carries (`Session.Wired.finish`).
-/

namespace SignalNet

open Computing

namespace Session

open Lowering

variable {α : Type} [Scalar α] {targets : List ExprId} {program : Program α}
  {s s' : Session α}

/-! ### The steps of a session -/

/-- Collecting a source for some of the targets. -/
theorem steps_addResolver {r : Resolver α} (hr : ∀ id ∈ r.targets, id ∈ targets) {u : Unit}
    (hrun : Session.addResolver r s = .ok u s') : Steps program targets s s' := by
  intro h
  obtain rfl := modify_eq_ok.mp hrun
  have hgrows : s.Grows targets { s with resolvers := s.resolvers ++ [r] } := by
    refine ⟨⟨Fragment.Extends.refl _, fun hq => hq, fun hq => hq⟩, fun o ho => ⟨o, ho, rfl⟩, [r],
      rfl, ?_⟩
    intro r' hr'
    obtain rfl := List.mem_singleton.mp hr'
    exact hr
  exact ⟨h.grow hgrows h.wellFormed (fun _ _ _ hopen => hopen) rfl Or.inl Or.inl, hgrows⟩

/-- Recording what a port stands for. -/
theorem steps_register (signal : Signal) (port : PortId) :
    Leaves (Steps program targets) (register signal port) := by
  intro s s' u hrun
  obtain ⟨f, hcall, rfl⟩ := wire_eq_ok.mp hrun
  obtain rfl := Fragment.register_eq_ok hcall
  exact steps_withFragment (Fragment.withSignals_extends _ _) (fun hf => hf.withSignals _)
    fun _ _ _ hopen => hopen

/-- A sink is wired to a port of its own. -/
theorem steps_storePersisted {handle : Nat} {u : Unit}
    (hrun : Session.storePersisted program handle s = .ok u s') : Steps program targets s s' := by
  obtain ⟨slot, source, value, s₁, kind, -, hlower, hfits, hports, hfree, rfl⟩ :=
    storePersisted_eq_ok hrun
  have hsteps₁ : Steps program targets s s₁ := fun h => (h.lower hlower).1
  refine hsteps₁.trans (steps_withFragment ?_ ?_ ?_)
  · exact Fragment.withBlock_extends.trans (Fragment.withWires_extends _ _)
  · exact fun hf => (hf.withBlock hfits).withWire hports hfree
  · exact Fragment.spares_of_wires rfl (by simp)

/-- **Every step of a session** keeps it wired. -/
theorem closed_steps (program : Program α) (targets : List ExprId) :
    Closed program targets (Steps program targets) where
  toStepwise := stepwise_steps program targets
  lower _ _ _ _ hrun h := (h.lower hrun).1
  addResolver _ hr _ _ _ hrun := steps_addResolver hr hrun
  milestone _ port := steps_register _ port
  expose := by
    intro name port s s' u hrun
    obtain ⟨f, hcall, rfl⟩ := wire_eq_ok.mp hrun
    obtain ⟨-, hextends, -, hwell, -, -, hconnections, -⟩ := Fragment.expose_eq_ok hcall
    refine steps_withFragment hextends hwell ?_
    exact Fragment.spares_of_wires (hconnections.trans (List.append_nil _).symm) (by simp)
  storePersisted _ _ _ _ hrun := steps_storePersisted hrun

/-! ### What is opened on the way -/

omit [Scalar α] in
/-- No source is collected, and placeholders are added that wait for theirs. -/
structure Awaits (s s' : Session α) : Prop where
  resolvers : s'.resolvers = s.resolvers
  placeholders : ∃ more, s'.placeholders = s.placeholders ++ more ∧
    ∀ o ∈ more, o.resolved = false

omit [Scalar α] in
theorem awaits_of_eq (hresolvers : s'.resolvers = s.resolvers)
    (hplaceholders : s'.placeholders = s.placeholders) : s.Awaits s' :=
  ⟨hresolvers, [], by simp [hplaceholders], by simp⟩

omit [Scalar α] in
theorem Awaits.refl (s : Session α) : s.Awaits s :=
  awaits_of_eq rfl rfl

omit [Scalar α] in
theorem Awaits.trans {s₁ s₂ s₃ : Session α} (h₁ : s₁.Awaits s₂) (h₂ : s₂.Awaits s₃) :
    s₁.Awaits s₃ := by
  obtain ⟨first, hfirst, hold⟩ := h₁.placeholders
  obtain ⟨second, hsecond, hnew⟩ := h₂.placeholders
  refine ⟨h₂.resolvers.trans h₁.resolvers, first ++ second, ?_, ?_⟩
  · rw [hsecond, hfirst, List.append_assoc]
  · intro o ho
    rcases List.mem_append.mp ho with ho | ho
    · exact hold o ho
    · exact hnew o ho

omit [Scalar α] in
theorem Awaits.mem (h : s.Awaits s') {o : OpenPlaceholder} (ho : o ∈ s.placeholders) :
    o ∈ s'.placeholders := by
  obtain ⟨more, hmore, -⟩ := h.placeholders
  exact hmore ▸ List.mem_append_left _ ho

omit [Scalar α] in
/-- What is resolved was resolved before. -/
theorem Awaits.resolved (h : s.Awaits s') {o : OpenPlaceholder} (ho : o ∈ s'.placeholders)
    (hresolved : o.resolved = true) : o ∈ s.placeholders := by
  obtain ⟨more, hmore, hwaits⟩ := h.placeholders
  rw [hmore] at ho
  rcases List.mem_append.mp ho with hold | hnew
  · exact hold
  · rw [hwaits o hnew] at hresolved
    cases hresolved

omit [Scalar α] in
/-- Placeholders are added that wait, and nothing is entered. -/
structure Opens (s s' : Session α) : Prop extends Awaits s s' where
  lowered : s'.lowered = s.lowered

omit [Scalar α] in
theorem Opens.refl (s : Session α) : s.Opens s :=
  ⟨.refl s, rfl⟩

omit [Scalar α] in
theorem Opens.trans {s₁ s₂ s₃ : Session α} (h₁ : s₁.Opens s₂) (h₂ : s₂.Opens s₃) :
    s₁.Opens s₃ :=
  ⟨h₁.toAwaits.trans h₂.toAwaits, h₂.lowered.trans h₁.lowered⟩

omit [Scalar α] in
theorem opens_wire {β : Type} {call : Wiring α β} {b : β} (hrun : wire call s = .ok b s') :
    s.Opens s' := by
  obtain ⟨f, -, rfl⟩ := wire_eq_ok.mp hrun
  exact ⟨awaits_of_eq rfl rfl, rfl⟩

/-- Blocks and constants open nothing. -/
theorem stepwise_opens : Stepwise (Opens (α := α)) where
  refl := Opens.refl
  trans := Opens.trans
  add := by
    intro primitive inputs kind s s' q hrun
    unfold add at hrun
    split at hrun
    · exact opens_wire hrun
    · exact opens_wire hrun
  constPort := by
    intro v s s' q hrun
    obtain ⟨_, _, hget, hafter⟩ := bind_eq_ok.mp hrun
    obtain ⟨rfl, rfl⟩ := get_eq_ok.mp hget
    cases hfind : s.constants.get? v.canonical with
    | some port =>
        simp only [hfind] at hafter
        obtain ⟨-, rfl⟩ := pure_eq_ok.mp hafter
        exact Opens.refl _
    | none =>
        simp only [hfind] at hafter
        obtain ⟨port, s₁, hwire, hafter⟩ := bind_eq_ok.mp hafter
        obtain ⟨_, s₂, hmodify, hafter⟩ := bind_eq_ok.mp hafter
        obtain rfl := modify_eq_ok.mp hmodify
        obtain ⟨-, rfl⟩ := pure_eq_ok.mp hafter
        obtain ⟨⟨hresolvers, hplaceholders⟩, hlowered⟩ := opens_wire hwire
        exact ⟨⟨hresolvers, hplaceholders⟩, hlowered⟩

theorem LoweredBy.opens {id : ExprId} {n : Node α} {inputs : List PortId} {q : PortId}
    (hn : program.pool.get? id = some n) (h : LoweredBy program id n inputs s q s') :
    s.Opens s' := by
  refine stepwise_opens.node ?_ hn h
  intro id n number label hn hform s s' q hrun
  obtain ⟨-, -, rfl⟩ := openPlaceholder_eq_ok hn hform hrun
  exact ⟨⟨rfl, _, rfl, by simp⟩, rfl⟩

/-! ### The end of a session -/

omit [Scalar α] in
/-- Marking a placeholder changes no inputs. -/
theorem markResolved_inputs (number : Nat) (placeholders : List OpenPlaceholder) :
    (markResolved number placeholders).map (·.input) = placeholders.map (·.input) := by
  induction placeholders with
  | nil => rfl
  | cons o rest ih =>
      rw [markResolved]
      split
      · rfl
      · rw [List.map_cons, List.map_cons, ih]

omit [Scalar α] in
/-- A placeholder stays where it was, marked or not. -/
theorem mem_markResolved {number : Nat} {placeholders : List OpenPlaceholder}
    {o : OpenPlaceholder} (ho : o ∈ placeholders) :
    ∃ o' ∈ markResolved number placeholders, o'.expr = o.expr := by
  induction placeholders with
  | nil => cases ho
  | cons first rest ih =>
      rw [markResolved]
      rcases List.mem_cons.mp ho with rfl | ho
      · split
        · exact ⟨_, List.mem_cons_self, rfl⟩
        · exact ⟨o, List.mem_cons_self, rfl⟩
      · split
        · exact ⟨o, List.mem_cons_of_mem _ ho, rfl⟩
        · obtain ⟨o', ho', hexpr⟩ := ih ho
          exact ⟨o', List.mem_cons_of_mem _ ho', hexpr⟩

omit [Scalar α] in
/-- The first placeholder with the number is marked.  The others are as they
were, and have other inputs. -/
theorem markResolved_cases {number : Nat} {p : OpenPlaceholder}
    {placeholders : List OpenPlaceholder}
    (hfind : (placeholders.find? fun p => decide (p.number = number)) = some p)
    (hinputs : (placeholders.map (·.input)).Nodup) {o : OpenPlaceholder}
    (ho : o ∈ markResolved number placeholders) :
    o = { p with resolved := true } ∨ o ∈ placeholders ∧ o.input ≠ p.input := by
  induction placeholders with
  | nil => cases hfind
  | cons first rest ih =>
      rw [List.map_cons, List.nodup_cons] at hinputs
      rw [List.find?_cons] at hfind
      rw [markResolved] at ho
      by_cases hnumber : first.number = number
      · simp only [hnumber, decide_true, Option.some.injEq] at hfind
        subst hfind
        rw [if_pos hnumber] at ho
        rcases List.mem_cons.mp ho with rfl | hrest
        · exact Or.inl rfl
        · refine Or.inr ⟨List.mem_cons_of_mem _ hrest, fun heq => hinputs.1 ?_⟩
          exact List.mem_map.mpr ⟨o, hrest, heq⟩
      · simp only [hnumber, decide_false] at hfind
        rw [if_neg hnumber] at ho
        rcases List.mem_cons.mp ho with rfl | hrest
        · refine Or.inr ⟨List.mem_cons_self, fun heq => hinputs.1 ?_⟩
          exact List.mem_map.mpr ⟨p, List.mem_of_find?_eq_some hfind, heq.symm⟩
        · rcases ih hfind hinputs.2 hrest with heq | ⟨hmem, hne⟩
          · exact Or.inl heq
          · exact Or.inr ⟨List.mem_cons_of_mem _ hmem, hne⟩

omit [Scalar α] in
/-- A resolved placeholder waits no longer, and the inputs of the others stay
open. -/
theorem Orderly.resolve (h : Orderly program s) {number : Nat} {port : PortId} {u : Unit}
    (hrun : Session.resolve number port s = .ok u s') : Orderly program s' := by
  obtain ⟨p, hfind, hports, hfree, rfl⟩ := resolve_eq_ok hrun
  have hothers := fun o => markResolved_cases hfind h.inputs (o := o)
  have hextends : s.fragment.Extends (s.fragment.withWires [⟨port, p.input⟩]) :=
    Fragment.withWires_extends _ _
  refine ⟨h.wellFormed.withWire hports hfree, ?_, ?_, ?_⟩
  · intro o ho
    rcases hothers o ho with rfl | ⟨hold, -⟩
    · obtain ⟨n, q, hn, hform, hq, hpasses⟩ := h.opened p (List.mem_of_find?_eq_some hfind)
      exact ⟨n, q, hn, hform, hq, hpasses.extend hextends⟩
    · exact h.opened_grow hextends hold fun hq => hq
  · rw [markResolved_inputs]
    exact h.inputs
  · intro o ho hwaits
    rcases hothers o ho with rfl | ⟨hold, hne⟩
    · cases hwaits
    · exact Fragment.producer?_withWire_of_ne hne.symm (h.waiting o hold hwaits)

/-- The number of a placeholder says which expression it is. -/
theorem Orderly.expr_of_number (hp : program.pool.WellFormed) (h : Orderly program s) {id : ExprId}
    {n : Node α} {number : Nat} {label : String} (hn : program.pool.get? id = some n)
    (hform : n.form = .placeholder number label) {p : OpenPlaceholder}
    (hfind : (s.placeholders.find? fun p => decide (p.number = number)) = some p) :
    p.expr = id := by
  obtain ⟨m, q, hm, hform', -, -⟩ := h.opened p (List.mem_of_find?_eq_some hfind)
  rw [show p.number = number by simpa using List.find?_some hfind] at hform'
  exact hp.numbered hm hn hform' hform

/-- Wiring a placeholder to its source. -/
theorem Wired.resolve (hp : program.pool.WellFormed) (h : Wired program s) {id : ExprId}
    {n : Node α} {number : Nat} {label : String} (hn : program.pool.get? id = some n)
    (hform : n.form = .placeholder number label) {r : Resolver α} {port : PortId}
    (hr : s.resolver? id = some r) (hsource : s.SourceAt port r.source) {u : Unit}
    (hrun : Session.resolve number port s = .ok u s') :
    Wired program s' ∧ s.Grows targets s' := by
  have horderly := h.toOrderly.resolve hrun
  obtain ⟨p, hfind, -, -, rfl⟩ := resolve_eq_ok hrun
  obtain rfl := h.expr_of_number hp hn hform hfind
  have hgrows : s.Grows targets { s with
      fragment := s.fragment.withWires [⟨port, p.input⟩]
      placeholders := markResolved number s.placeholders } :=
    ⟨⟨Fragment.withWires_extends _ _, fun hq => hq, fun hq => hq⟩,
      fun _ ho => mem_markResolved ho, [], (List.append_nil _).symm, by simp⟩
  refine ⟨⟨horderly, ?_, ?_, h.founded, ?_⟩, hgrows⟩
  · intro c q hq
    obtain ⟨v, hv, hmakes⟩ := h.constants hq
    exact ⟨v, hv, hmakes.extend hgrows.fragment⟩
  · intro j q hq
    obtain ⟨m, hm, hshows⟩ := h.entries hq
    exact ⟨m, hm, hshows.grow hgrows⟩
  · intro o ho hdone
    rcases markResolved_cases hfind h.inputs ho with rfl | ⟨hold, -⟩
    · refine ⟨r, port, hgrows.resolver? hr, hsource.grow hgrows, ?_⟩
      exact horderly.wellFormed.producer?_eq_some_iff.mpr
        (List.mem_append_right _ List.mem_cons_self)
    · exact h.settled_grow hgrows hold hdone

/-- The source of a placeholder is lowered to its port. -/
theorem Wired.sourcePort (h : Wired program s) {source : Source α}
    {q : PortId} (hrun : Session.sourcePort program source s = .ok q s') :
    (Wired program s' ∧ s.Grows targets s') ∧ s'.SourceAt q source := by
  cases source with
  | expression producer => exact h.lower hrun
  | constant v => exact ⟨steps_constPort hrun h, constPort_entered h.wellFormed hrun⟩
  | port id =>
      obtain ⟨rfl, rfl⟩ := pure_eq_ok.mp hrun
      exact ⟨⟨h, Grows.refl _⟩, rfl⟩

/-- Resolving one placeholder by the sources that have been collected. -/
theorem Wired.resolveOpen (hp : program.pool.WellFormed) (h : Wired program s)
    {resolvers : List (Resolver α)} (hresolvers : resolvers <+: s.resolvers)
    {p : OpenPlaceholder} {n : Node α} {label : String} (hn : program.pool.get? p.expr = some n)
    (hform : n.form = .placeholder p.number label) {u : Unit}
    (hrun : Session.resolveOpen program resolvers p s = .ok u s') :
    Wired program s' ∧ s.Grows targets s' := by
  obtain ⟨r, port, s₁, hfind, hport, hresolve⟩ := resolveOpen_eq_ok hrun
  obtain ⟨⟨h₁, hgrows₁⟩, hsource⟩ := h.sourcePort hport
  have hr : s.resolver? p.expr = some r := by
    obtain ⟨more, hmore⟩ := hresolvers
    unfold Session.resolver?
    rw [← hmore, List.find?_append, hfind]
    rfl
  obtain ⟨h₂, hgrows₂⟩ :=
    h₁.resolve hp hn hform (hgrows₁.resolver? hr) hsource hresolve
  exact ⟨h₂, hgrows₁.trans hgrows₂⟩

/-- Resolving placeholders one after the other. -/
theorem Wired.resolveEach (hp : program.pool.WellFormed) (h : Wired program s)
    {resolvers : List (Resolver α)} (hresolvers : resolvers <+: s.resolvers)
    {waiting : List OpenPlaceholder}
    (hwaiting : ∀ p ∈ waiting, ∃ n label, program.pool.get? p.expr = some n ∧
      n.form = .placeholder p.number label) {u : Unit}
    (hrun : Session.resolveEach program resolvers waiting s = .ok u s') :
    Wired program s' ∧ s.Grows targets s' := by
  induction waiting generalizing s with
  | nil =>
      obtain ⟨-, rfl⟩ := pure_eq_ok.mp hrun
      exact ⟨h, Grows.refl _⟩
  | cons p rest ih =>
      obtain ⟨_, s₁, hfirst, hrest⟩ := bind_eq_ok.mp hrun
      obtain ⟨n, label, hn, hform⟩ := hwaiting p List.mem_cons_self
      obtain ⟨h₁, hgrows₁⟩ := h.resolveOpen hp hresolvers hn hform hfirst
      obtain ⟨more, hmore, -⟩ := hgrows₁.resolvers
      obtain ⟨h₂, hgrows₂⟩ := ih h₁ (hresolvers.trans ⟨more, hmore.symm⟩)
        (fun p hp => hwaiting p (List.mem_cons_of_mem _ hp)) hrest
      exact ⟨h₂, hgrows₁.trans hgrows₂⟩

/-- Resolving placeholders round by round. -/
theorem Wired.resolveWithin (hp : program.pool.WellFormed) (h : Wired program s) {fuel : Nat}
    {u : Unit} (hrun : Session.resolveWithin program fuel s = .ok u s') :
    Wired program s' ∧ s.Grows targets s' := by
  refine resolveWithin_induct (I := fun t => Wired program t ∧ s.Grows targets t) ?_
    ⟨h, Grows.refl _⟩ hrun
  rintro s₁ s₂ u ⟨h₁, hgrows₁⟩ hround
  have hplaceholders : ∀ o ∈ s₁.unresolved, ∃ n label, program.pool.get? o.expr = some n ∧
      n.form = .placeholder o.number label := by
    intro o ho
    obtain ⟨n, q, hn, hform, -⟩ := h₁.opened o (List.mem_filter.mp ho).1
    exact ⟨n, _, hn, hform⟩
  obtain ⟨h₂, hgrows₂⟩ := h₁.resolveEach hp List.prefix_rfl hplaceholders hround
  exact ⟨h₂, hgrows₁.trans hgrows₂⟩

/-- All loops are closed: the port of a placeholder carries a copy of what its
first source carries, if rules leave placeholders to the library. -/
def Resolved (program : Program α) (s : Session α) : Prop :=
  ∀ {id : ExprId} {n : Node α} {number : Nat} {label : String} {q : PortId},
    s.lowered.get? id = some q → program.pool.get? id = some n →
    program.rules.Keeps n.form → n.form = .placeholder number label → ∃ r source, s.resolver? id = some r ∧
      s.SourceAt source r.source ∧ s.fragment.Makes q .identity [source] n.kind

/-- **The end of a session** closes all loops. -/
theorem Wired.finish (hp : program.pool.WellFormed) (h : Wired program s) {f : Fragment α}
    (hrun : Session.finish program s = .ok f s') :
    (Wired program s' ∧ s.Grows targets s') ∧ s'.fragment = f ∧ Resolved program s' := by
  obtain ⟨hresolve, hfragment, hvalid⟩ := finish_eq_ok hrun
  have hwired : Wired program s' ∧ s.Grows targets s' := h.resolveWithin hp hresolve
  refine ⟨hwired, hfragment, ?_⟩
  have h₁ := hwired.1
  intro id n number label q hq hn hkeeps hform
  obtain ⟨n', hn', hshows⟩ := h₁.entries hq
  rw [hn] at hn'
  cases hn'
  obtain ⟨o, ho, rfl⟩ := hshows.opened hkeeps hform
  obtain ⟨n', q', hn', -, hq', hpasses⟩ := h₁.opened o ho
  rw [hn] at hn'
  cases hn'
  rw [hq] at hq'
  cases hq'
  -- An input that is still open would not pass the final check.
  have hresolved : o.resolved = true := by
    by_contra hwaits
    obtain ⟨port, hport, hinput⟩ := h₁.input_port ho
    obtain ⟨source, hsource⟩ :=
      Fragment.openInput?_eq_none (Fragment.validate_eq_ok (hfragment ▸ hvalid)).2 hport hinput
    rw [h₁.waiting o ho ((Bool.not_eq_true _).mp hwaits)] at hsource
    cases hsource
  obtain ⟨r, source, hr, hsource, hproducer⟩ := h₁.settled o ho hresolved
  exact ⟨r, source, hr, hsource, hpasses.makes hproducer⟩

end Session

end SignalNet
