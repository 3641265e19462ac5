import SignalNet.Proofs.Compile.Cancellation
import SignalNet.Proofs.Compile.Closing
import SignalNet.Proofs.Compile.Rounds

/-!
# Commands and actions close their loops

A session that keeps its loops closable (`Session.Closing`), and has a source
for every placeholder that it may meet, comes to its end round by round
(`Session.closing_resolving`).  Then early placeholders settle from nothing,
late ones settle from early ones, and everything else is fed forward, so the
network has no loop that no delay breaks (`Session.Closing.validate`).

Actions and commands that are made from plain expressions have these sources.
`Compiler.plain_request_closes_loops` is the result: compiling them ends with a
network, or with an error that is not about loops.
-/

namespace SignalNet

open Computing Lowering

namespace Session

variable {α : Type} [Scalar α] {program : Program α} {early late : List ExprId} {s s' : Session α}

/-! ### Sources for placeholders -/

omit [Scalar α] in
/-- Some source has been collected for each of the expressions. -/
def Covers (s : Session α) (ids : List ExprId) : Prop :=
  ∀ x ∈ ids, ∃ r ∈ s.resolvers, x ∈ r.targets

theorem Covers.grow {targets ids : List ExprId} (h : s.Covers ids) (hs : s.Grows targets s') :
    s'.Covers ids := by
  obtain ⟨more, hmore, -⟩ := hs.resolvers
  intro x hx
  obtain ⟨r, hr, hmem⟩ := h x hx
  refine ⟨r, ?_, hmem⟩
  rw [hmore]
  exact List.mem_append_left _ hr

/-- A placeholder that was opened has a source that may be used. -/
theorem Closing.source (h : Closing program early late s) (hcovers : s.Covers (early ++ late))
    {p : OpenPlaceholder} (hp : p ∈ s.placeholders) :
    ∃ r ∈ s.resolvers, s.resolver? p.expr = some r := by
  obtain ⟨n, q, hn, hform, hq, -⟩ := h.wired.opened p hp
  obtain ⟨r, hr, hmem⟩ := hcovers p.expr (h.confined hq .root hn hform)
  cases hfind : s.resolver? p.expr with
  | none => exact absurd (List.contains_iff_mem.mpr hmem) (List.find?_eq_none.mp hfind r hr)
  | some first => exact ⟨first, List.mem_of_find?_eq_some hfind, rfl⟩

/-- The port of a source.  Placeholders that are opened on the way wait. -/
theorem Closing.sourcePort (hprogram : program.Regular) (h : Closing program early late s)
    {r : Resolver α} (hr : MayClose program early late s r) {q : PortId}
    (hrun : Session.sourcePort program r.source s = .ok q s') :
    Closing program early late s' ∧ s'.SourceAt q r.source ∧ s.Awaits s' := by
  obtain ⟨-, hsource⟩ : (Wired program s' ∧ s.Grows [] s') ∧ s'.SourceAt q r.source :=
    h.wired.sourcePort hrun
  have htimed := hr.timed
  cases hform : r.source with
  | expression producer =>
      rw [hform] at hrun htimed
      exact h.lower hprogram htimed.1 hrun
  | constant v =>
      rw [hform] at hrun
      have hopens := stepwise_opens.constPort _ _ _ _ hrun
      obtain ⟨hclosing, -⟩ := h.advance ((stepwise_steps program _).constPort _ _ _ _ hrun)
        ((stepwise_advances program).constPort _ _ _ _ hrun).2 hopens
      exact ⟨hclosing, hform ▸ hsource, hopens.toAwaits⟩
  | port id =>
      rw [hform] at hrun
      obtain ⟨rfl, rfl⟩ := pure_eq_ok.mp hrun
      exact ⟨h, rfl, .refl _⟩

/-! ### Resolving placeholders -/

/-- A placeholder is wired to its first source. -/
theorem Closing.resolve (hprogram : program.Regular) (h : Closing program early late s)
    {p : OpenPlaceholder} (hp : p ∈ s.placeholders) {r : Resolver α}
    (hr : s.resolver? p.expr = some r) {q : PortId} (hq : s.SourceAt q r.source) {u : Unit}
    (hrun : Session.resolve p.number q s = .ok u s') : Closing program early late s' := by
  obtain ⟨n, _, hn, hform, -⟩ := h.wired.opened p hp
  obtain ⟨hwired, hgrows⟩ : Wired program s' ∧ s.Grows [] s' :=
    h.wired.resolve hprogram.pool hn hform hr hq hrun
  obtain ⟨p', -, -, -, rfl⟩ := resolve_eq_ok hrun
  refine h.grow hgrows hwired ?_ rfl (fun r hr => Or.inl hr) (h.signals_grow hgrows rfl)
  refine h.forward.grow hgrows.fragment ?_ fun hb => Or.inl hb
  intro o ho
  have hinput : o.input ∈ (markResolved p.number s.placeholders).map (·.input) := by
    rw [markResolved_inputs]
    exact List.mem_map.mpr ⟨o, ho, rfl⟩
  exact List.mem_map.mp hinput

/-- **Every placeholder can be resolved**, up to errors that are not about
loops. -/
theorem closing_resolving (hprogram : program.Regular) :
    Resolving program (fun s => Closing program early late s ∧ s.Covers (early ++ late))
      fun e _ => e.Harmless where
  pool := hprogram.pool
  orderly h := h.1.wired.toOrderly
  source := by
    rintro s s' r q ⟨h, hcovers⟩ hr hrun
    obtain ⟨h', hat, hawaits⟩ := h.sourcePort hprogram (h.sources r hr) hrun
    refine ⟨⟨h', ?_⟩, hawaits, hat⟩
    rw [Covers, hawaits.resolvers]
    exact hcovers
  wire := by
    rintro s s' p r q u ⟨h, hcovers⟩ hp hr hq hrun
    refine ⟨h.resolve hprogram hp hr hq hrun, ?_⟩
    obtain ⟨p', -, -, -, rfl⟩ := resolve_eq_ok hrun
    exact hcovers
  missing := by
    rintro s p ⟨h, hcovers⟩ hp - hnone
    obtain ⟨r, -, hr⟩ := h.source hcovers hp
    rw [hnone] at hr
    cases hr
  stops hrun := sourcePort_fails program _ _ _ _ hrun
  misfit he _ := he.1

/-! ### The complete network -/

/-- A placeholder settles as its source does. -/
theorem Closing.settles_resolved (h : Closing program early late s) (hdone : s.unresolved = [])
    {o : OpenPlaceholder} (ho : o ∈ s.placeholders) {q : PortId}
    (hq : s.lowered.get? o.expr = some q) {ids : List ExprId}
    (htimed : ∀ r ∈ s.resolvers, o.expr ∈ r.targets → Timed program early late ids s r.source) :
    s.fragment.Settles (s.PortOf ids) q := by
  obtain ⟨r, source, hr, hat, hproducer⟩ := h.wired.settled o ho (resolved_of_done hdone ho)
  obtain ⟨n, q', -, -, hq', hpasses⟩ := h.wired.opened o ho
  rw [hq] at hq'
  cases hq'
  refine .block (hpasses.makes hproducer) ?_
  intro source' hmem
  rw [List.mem_singleton.mp hmem]
  exact h.sourceAt (htimed r (List.mem_of_find?_eq_some hr)
    (List.contains_iff_mem.mp (by simpa using List.find?_some hr))) hat

/-- **All placeholders settle** once they are resolved: early ones from nothing,
and so late ones, too. -/
theorem Closing.settles_placeholder (h : Closing program early late s)
    (hdone : s.unresolved = []) {o : OpenPlaceholder} (ho : o ∈ s.placeholders) {q : PortId}
    (hq : s.lowered.get? o.expr = some q) : s.fragment.Settles (fun _ => False) q := by
  have hnone : ∀ {p : PortId}, ¬ s.PortOf [] p := by
    rintro p ⟨o', -, hmem, -⟩
    cases hmem
  have hearly : ∀ p, s.PortOf early p → s.fragment.Settles (fun _ => False) p := by
    rintro p ⟨o', ho', hmem, hp⟩
    have hsettles : s.fragment.Settles (s.PortOf []) p := h.settles_resolved hdone ho' hp
      fun r hr htarget => (h.sources r hr).first _ htarget hmem
    exact hsettles.subst fun _ hx => absurd hx hnone
  have hsettles : s.fragment.Settles (s.PortOf early) q :=
    h.settles_resolved hdone ho hq fun r hr _ => (h.sources r hr).timed
  exact hsettles.subst hearly

/-- **A session that has resolved all placeholders leaves a valid network.** -/
theorem Closing.validate (h : Closing program early late s) (hdone : s.unresolved = []) :
    s.fragment.validate = .ok () := by
  have hf := h.wired.wellFormed
  refine hf.validate_of_acc ?_ ?_
  · intro b blk hb input hinput
    rcases h.forward b blk hb with ⟨o, ho, hinputs⟩ | hfed
    · obtain ⟨r, source, -, -, hproducer⟩ := h.wired.settled o ho (resolved_of_done hdone ho)
      rw [hinputs] at hinput
      rw [List.mem_singleton.mp hinput, hproducer]
      rfl
    · obtain ⟨source, port, hsource, -⟩ := hfed input hinput
      rw [hsource]
      rfl
  · -- By the number of the block: what is no placeholder is fed forward.
    intro b
    induction b using Nat.strongRecOn with
    | _ b ih =>
        intro hb
        have hblk := List.getElem?_eq_getElem hb
        rcases h.forward b _ hblk with ⟨o, ho, hinputs⟩ | hfed
        · obtain ⟨n, q, -, -, hq, b', blk', hblk', -, hinputs', -, hport⟩ :=
            h.wired.opened o ho
          have hsame : b' = b := by
            obtain ⟨kind, hinput⟩ := hf.inputs hblk (i := 0) (q := o.input) (by simp [hinputs])
            obtain ⟨kind', hinput'⟩ := hf.inputs hblk' (i := 0) (q := o.input) (by simp [hinputs'])
            exact congrArg Port.block (Option.some.inj (hinput'.symm.trans hinput))
          subst hsame
          exact (h.settles_placeholder hdone ho hq).acc hf hport
        · refine Acc.intro b fun a ha => ?_
          obtain ⟨blk', input, source, port, hblk', -, hinput, hsource, hport, rfl⟩ :=
            hf.feeds_cases ha
          rw [hblk] at hblk'
          cases hblk'
          obtain ⟨source', port', hsource', hport', hlt⟩ := hfed input hinput
          rw [hsource] at hsource'
          cases hsource'
          rw [hport] at hport'
          cases hport'
          exact ih port.block hlt (block_lt hf hport)

/-- **The end of a session**: it has no reason to fail that is about loops. -/
theorem closing_finish (hprogram : program.Regular) (hcovers : s.Covers (early ++ late)) :
    (closing program early late).Safe (finish program) s fun _ _ => True := by
  intro h
  have hresolving : Resolving program
      (fun t => Closing program early late t ∧ t.Covers (early ++ late)) fun e _ => e.Harmless :=
    closing_resolving hprogram
  obtain ⟨rounds, -, hrounds⟩ := hresolving.rounds ⟨h, hcovers⟩
  obtain ⟨hends, hfails⟩ := hresolving.result hrounds ⟨h, hcovers⟩
  refine ⟨?_, ?_⟩
  · intro f s' hrun
    obtain ⟨hresolve, -⟩ := finish_eq_ok hrun
    obtain ⟨-, hgrows⟩ : Wired program s' ∧ s.Grows (early ++ late) s' :=
      h.wired.resolveWithin hprogram.pool hresolve
    exact ⟨(hends _ _ hresolve).1.1, hgrows, trivial⟩
  · intro e s' hrun
    rcases finish_eq_error hrun with hresolve | ⟨hresolve, cause, hinvalid, -⟩
    · exact hfails _ _ hresolve
    · obtain ⟨⟨h', -⟩, hdone⟩ := hends _ _ hresolve
      rw [h'.validate hdone] at hinvalid
      cases hinvalid

/-! ### Sources that are collected -/

omit [Scalar α] in
theorem addResolver_covers {r : Resolver α} {u : Unit} (hrun : addResolver r s = .ok u s') :
    s'.Covers r.targets := by
  obtain rfl := modify_eq_ok.mp hrun
  exact fun x hx => ⟨r, List.mem_append_right _ List.mem_cons_self, hx⟩

omit [Scalar α] in
theorem Covers.append {ids more : List ExprId} (h : s.Covers ids) (hmore : s.Covers more) :
    s.Covers (ids ++ more) := by
  intro x hx
  rcases List.mem_append.mp hx with hx | hx
  · exact h x hx
  · exact hmore x hx

variable {targets : List ExprId}

/-- An action collects a source for the position of its ramp. -/
theorem lowerAction_covers {a : Action α}
    (ha : ∀ id ∈ a.positions, id ∈ targets) (h : Wired program s) {ports : ActionPorts}
    (hrun : lowerAction program a s = .ok ports s') : s'.Covers a.positions := by
  have hclosed := closed_steps program targets
  induction a generalizing s s' ports with
  | basic name motion raises =>
      obtain ⟨_, _, _, _, s₁, s₂, hmotion, hregister, hraises, rfl⟩ := lowerAction_basic_eq_ok hrun
      cases motion with
      | ramp channel position scale next distance =>
          obtain ⟨_, t, hresolver, hafter⟩ := bind_eq_ok.mp hmotion
          have hposition : ∀ id ∈ [position], id ∈ targets := ha
          obtain ⟨ht, -⟩ := hclosed.addResolver _ hposition _ _ _ hresolver h
          -- What follows collects nothing for the position, and drops nothing.
          have hrest : Steps program targets t s₁ :=
            hclosed.bind (hclosed.lower _) (fun _ => hclosed.bind (hclosed.lower _) fun _ =>
              hclosed.bind (hclosed.constPort _) fun _ => hclosed.bind (hclosed.add _ _ _)
              fun _ => hclosed.pure _) _ _ _ hafter
          obtain ⟨h₁, hgrows₁⟩ := hrest ht
          obtain ⟨h₂, hgrows₂⟩ := hclosed.registerCompleted _ _ _ _ _ hregister h₁
          obtain ⟨-, hgrows₃⟩ := hclosed.lowerRaises _ _ _ _ _ hraises h₂
          exact (addResolver_covers hresolver).grow (hgrows₁.trans (hgrows₂.trans hgrows₃))
      | track channel setpoint within settle => exact fun x hx => by cases hx
      | wait duration => exact fun x hx => by cases hx
  | wrapped name inner handled raises ih =>
      obtain ⟨_, _, _, _, s₁, s₂, s₃, hinner, hany, hregister, hraises, rfl⟩ :=
        lowerAction_wrapped_eq_ok hrun
      have hpositions : ∀ id ∈ inner.positions, id ∈ targets := ha
      obtain ⟨h₁, -⟩ := hclosed.lowerAction hpositions _ _ _ hinner h
      obtain ⟨h₂, hgrows₂⟩ := hclosed.anyOf _ _ _ _ hany h₁
      obtain ⟨h₃, hgrows₃⟩ := hclosed.registerCompleted _ _ _ _ _ hregister h₂
      obtain ⟨-, hgrows₄⟩ := hclosed.lowerRaises _ _ _ _ _ hraises h₃
      exact (ih hpositions h hinner).grow (hgrows₂.trans (hgrows₃.trans hgrows₄))

/-- A source for ramps is collected, if there are any. -/
theorem ramps_covers {ids : List ExprId} (hids : ∀ id ∈ ids, id ∈ targets)
    {source : Source α} (h : Wired program s)
    (hrun : ids = [] ∧ s' = s ∨ addResolver ⟨ids, source⟩ s = .ok () s') :
    Wired program s' ∧ s.Grows targets s' ∧ s'.Covers ids := by
  rcases hrun with ⟨rfl, rfl⟩ | hresolver
  · exact ⟨h, Grows.refl _, fun x hx => by cases hx⟩
  · obtain ⟨h', hgrows⟩ := (closed_steps program targets).addResolver _ hids _ _ _ hresolver h
    exact ⟨h', hgrows, addResolver_covers hresolver⟩

theorem lowerCancelInput_covers {c : Command α} (h : Wired program s)
    {action : ActionPorts} {input : PortId}
    (hrun : lowerCancelInput program c s = .ok (action, input) s') :
    s'.Covers (earlyTargets c) := by
  obtain ⟨s₁, s₂, s₃, haction, hscale, hramps, hinput⟩ := lowerCancelInput_eq_ok hrun
  have hclosed := closed_steps program (earlyTargets c)
  have hpositions : ∀ id ∈ c.action.positions, id ∈ earlyTargets c := fun id hid =>
    List.mem_cons_of_mem _ (List.mem_append_left _ hid)
  have hscales : ∀ id ∈ c.action.scalePlaceholders, id ∈ earlyTargets c := fun id hid =>
    List.mem_cons_of_mem _ (List.mem_append_right _ hid)
  obtain ⟨h₁, -⟩ := hclosed.lowerAction hpositions _ _ _ haction h
  obtain ⟨h₂, hgrows₂⟩ := hclosed.addResolver _ (by simp [earlyTargets]) _ _ _ hscale h₁
  obtain ⟨h₃, hgrows₃, hcovers₃⟩ := ramps_covers hscales h₂ hramps
  obtain ⟨-, hgrows₄⟩ := hclosed.lower _ _ _ _ hinput h₃
  have hstate := (addResolver_covers hscale).grow (hgrows₃.trans hgrows₄)
  have haction' := (lowerAction_covers hpositions h haction).grow
    (hgrows₂.trans (hgrows₃.trans hgrows₄))
  exact hstate.append (haction'.append (hcovers₃.grow hgrows₄))

theorem lowerCancellation_covers {c : Command α}
    (h : Wired program s) {action result : ActionPorts} {handled : Handled}
    (hrun : lowerCancellation program c action handled s = .ok result s') :
    s'.Covers [c.cancel] := by
  have hclosed := closed_steps program [c.cancel]
  obtain ⟨cancel, s₁, hany, hafter⟩ := bind_eq_ok.mp hrun
  obtain ⟨h₁, -⟩ := hclosed.anyOf _ _ _ _ hany h
  obtain ⟨_, s₂, hresolver, hafter⟩ := bind_eq_ok.mp hafter
  obtain ⟨h₂, -⟩ := hclosed.addResolver _ (fun _ hid => hid) _ _ _ hresolver h₁
  have hrest : Steps program [c.cancel] s₂ s' := by
    refine hclosed.bind (hclosed.lower _) (fun _ => ?_) _ _ _ hafter
    refine hclosed.bind (hclosed.constPort _) fun _ => ?_
    refine hclosed.bind (hclosed.add _ _ _) fun _ => ?_
    refine hclosed.bind (hclosed.allOf _) fun _ => ?_
    refine hclosed.bind (hclosed.lower _) fun _ => ?_
    exact hclosed.bind (hclosed.storeEach _) fun _ => hclosed.pure _
  exact (addResolver_covers hresolver).grow (hrest h₂).2

/-- **A command collects sources** for the placeholders of its ramp and for its
own. -/
theorem lowerCommand_covers {c : Command α}
    (h : Wired program s) {ports : ActionPorts}
    (hrun : lowerCommand program c s = .ok ports s') :
    s'.Covers (c.action.scalePlaceholders ++ (c.action.positions ++ [c.cancel, c.scaleState])) := by
  obtain ⟨action, input, handled, s₁, s₂, hinput, hhandlers, hcancellation⟩ :=
    lowerCommand_eq_ok hrun
  obtain ⟨h₁, -⟩ := (closed_steps program (earlyTargets c)).lowerCancelInput (fun _ hid => hid)
    _ _ _ hinput h
  have hclosed := closed_steps program [c.cancel]
  obtain ⟨h₂, hgrows₂⟩ := hclosed.lowerHandlers _ _ _ _ _ _ hhandlers h₁
  obtain ⟨-, hgrows₃⟩ := hclosed.lowerCancellation List.mem_cons_self _ _ _ _ _ hcancellation h₂
  have hearly := (lowerCancelInput_covers h hinput).grow (hgrows₂.trans hgrows₃)
  have hall := hearly.append (lowerCancellation_covers h₂ hcancellation)
  intro x hx
  refine hall x ?_
  simp only [earlyTargets, Action.placeholders, List.mem_append, List.mem_cons,
    List.not_mem_nil, or_false] at hx ⊢
  tauto

end Session

/-! ### Requests -/

section Requests

variable {α : Type}

/-- The placeholders of a target that are met in a cycle: the scale of a
ramp. -/
def Target.early : Target α → List ExprId
  | .expr _ => []
  | .action a => a.scalePlaceholders
  | .command c => c.action.scalePlaceholders

/-- The placeholders of a target that are looked back at. -/
def Target.late : Target α → List ExprId
  | .expr _ => []
  | .action a => a.positions
  | .command c => c.action.positions ++ [c.cancel, c.scaleState]

variable [Scalar α]

/-- A target is made from plain expressions.  Those that it asks for without
looking at them are plain, too: conditions for exceptions, conditions of
triggers, and values that are kept. -/
def Target.Plain (p : Pool α) : Target α → Prop
  | .expr id => p.Plain id
  | .action a => a.Plain p ∧ ∀ id ∈ a.conditions, p.Plain id
  | .command c => c.Plain p ∧ ∀ id ∈ c.action.conditions ++ c.conditions ++ c.kept p, p.Plain id

/-- A request for a target that is made from plain expressions, and for plain
observed expressions. -/
structure Request.Plain (p : Pool α) (request : Request α) : Prop where
  target : request.target.Plain p
  observed : ∀ id ∈ request.observed, p.Plain id

/-- A target collects sources for all of its placeholders. -/
theorem Session.lowerTarget_covers {program : Program α}
    {target : Target α} {s s' : Session α} (h : Session.Wired program s)
    {result : PortId ⊕ ActionPorts}
    (hrun : Session.lowerTarget program target s = .ok result s') :
    s'.Covers (target.early ++ target.late) := by
  cases target with
  | expr id => exact fun x hx => by cases hx
  | action a =>
      rw [lowerTarget] at hrun
      have hramps : ∀ id ∈ a.scalePlaceholders, id ∈ a.scalePlaceholders ++ a.positions :=
        fun id hid => List.mem_append_left _ hid
      have hpositions : ∀ id ∈ a.positions, id ∈ a.scalePlaceholders ++ a.positions :=
        fun id hid => List.mem_append_right _ hid
      obtain ⟨t, hresolver, hafter⟩ := ramps_eq_ok hrun
      obtain ⟨ht, -, hcovers⟩ := ramps_covers hramps h hresolver
      obtain ⟨ports, s₁, haction, hafter⟩ := bind_eq_ok.mp hafter
      obtain ⟨-, rfl⟩ := pure_eq_ok.mp hafter
      obtain ⟨-, hgrows⟩ := (closed_steps program _).lowerAction hpositions _ _ _ haction ht
      exact (hcovers.grow hgrows).append (lowerAction_covers hpositions ht haction)
  | command c =>
      obtain ⟨ports, s₁, hcommand, hafter⟩ := bind_eq_ok.mp hrun
      obtain ⟨-, rfl⟩ := pure_eq_ok.mp hafter
      exact lowerCommand_covers h hcommand

omit [Scalar α] in
theorem Action.positions_of_motion {a : Action α} {channel : String}
    {position scale next distance : ExprId}
    (h : a.motion = .ramp channel position scale next distance) : a.positions = [position] := by
  induction a with
  | basic name motion raises =>
      obtain rfl : motion = _ := h
      rfl
  | wrapped name inner handled raises ih => exact ih h

/-- What a ramp is driven by looks back at its position. -/
theorem Action.Tied.sources {program : Program α} {early late : List ExprId} {a : Action α}
    (h : a.Tied program.pool) (hearly : ∀ id ∈ a.scalePlaceholders, id ∈ early)
    (hlate : ∀ id ∈ a.positions, id ∈ late ∧ id ∉ early) :
    Discipline.ActionSources (Session.closing program early late) a := by
  intro channel position scale next distance hmotion s
  have hnext : next ∈ a.motion.expressions := by simp [hmotion, Motion.expressions]
  have htied := (h.expressions next hnext).2.mono hearly fun id hid => (hlate id hid).1
  obtain ⟨hin, hout⟩ := hlate position (by simp [Action.positions_of_motion hmotion])
  refine ⟨?_, ⟨htied.confined, htied.meets⟩, ?_⟩
  · intro x hx
    obtain rfl := List.mem_singleton.mp hx
    exact List.mem_append_right _ hin
  · intro x hx hx'
    obtain rfl := List.mem_singleton.mp hx
    exact absurd hx' hout

/-- **The expressions of a plain request** are tied to the placeholders of its
target. -/
theorem Request.Plain.roots {p : Pool α} {request : Request α} (h : request.Plain p) :
    ∀ id ∈ request.expressions p, p.Tied request.target.early request.target.late id := by
  have hplain : ∀ {id}, p.Plain id → p.Tied request.target.early request.target.late id :=
    fun hid => Pool.Plain.tied hid _ _
  intro id hid
  rcases List.mem_append.mp hid with hid | hid
  · have htarget := h.target
    cases hkind : request.target with
    | expr root =>
        rw [hkind] at htarget hid
        obtain rfl : id = root := List.mem_singleton.mp hid
        exact Pool.Plain.tied htarget _ _
    | action a =>
        rw [hkind] at htarget hid
        rcases List.mem_append.mp hid with hid | hid
        · exact (htarget.1.tied.expressions id hid).2
        · exact Pool.Plain.tied (htarget.2 id hid) _ _
    | command c =>
        rw [hkind] at htarget hid
        obtain ⟨hc, hasked⟩ := htarget
        have hown : ∀ {x}, p.Tied [] [c.cancel, c.scaleState] x →
            p.Tied (Target.command c).early (Target.command c).late x :=
          fun hx => hx.mono (by simp) fun y hy => List.mem_append_right _ hy
        simp only [Target.expressions, Command.expressions, Action.expressions, List.mem_append,
          List.mem_cons, List.not_mem_nil, or_false] at hid
        rcases hid with (((hid | hid) | rfl | rfl | rfl) | hid) | hid
        · have hmotion := (hc.tied.action.expressions id hid).2
          exact hmotion.mono (fun _ hx => hx) fun y hy => List.mem_append_left _ hy
        · exact Pool.Plain.tied (hasked id (by simp [hid])) _ _
        · obtain ⟨parts, hscaled⟩ := hc.built.scaled
          exact hscaled.cancelInput.tied_leaf rfl fun _ _ hform => by cases hform
        · exact hown hc.tied.scale
        · exact hown hc.tied.effective.2
        · exact Pool.Plain.tied (hasked id (by simp [hid])) _ _
        · exact Pool.Plain.tied (hasked id (by simp [hid])) _ _
  · exact hplain (h.observed id hid)

/-- **The sources of a plain target** close its loops through delays. -/
theorem Target.Plain.sources {program : Program α} {target : Target α}
    (h : target.Plain program.pool) :
    Discipline.RequestSources (Session.closing program target.early target.late) target := by
  cases target with
  | expr id => exact trivial
  | action a =>
      obtain ⟨ha, -⟩ := h
      refine ⟨ha.tied.sources (fun _ hid => hid) fun id hid => ⟨hid, ha.tied.apart id hid⟩, ?_⟩
      exact ⟨fun x hx => List.mem_append_left _ hx, trivial, fun _ _ _ => trivial⟩
  | command c =>
      obtain ⟨hc, -⟩ := h
      obtain ⟨parts, hscaled⟩ := hc.built.scaled
      have hcancel : c.cancel ∉ c.action.scalePlaceholders :=
        fun hmem => hscaled.apart.2.1 (List.mem_append_right _ hmem)
      have hown : ∀ {x}, program.pool.Tied [] [c.cancel, c.scaleState] x →
          ∀ ids, Session.Timed program (Target.command c).early (Target.command c).late ids
            (Session.empty : Session α) (.expression x) := by
        intro x hx ids
        have htied : program.pool.Tied (Target.command c).early (Target.command c).late x :=
          hx.mono (by simp) fun y hy => List.mem_append_right _ hy
        exact ⟨htied.confined, fun hmeets => absurd (hx.meets hmeets) (by simp)⟩
      refine ⟨?_, ?_, ?_, ?_⟩
      · refine hc.tied.action.sources (fun _ hid => hid) fun id hid => ?_
        exact ⟨List.mem_append_left _ hid, hc.tied.action.apart id hid⟩
      · intro s
        refine ⟨?_, hown hc.tied.scale _, ?_⟩
        · intro x hx
          obtain rfl := List.mem_singleton.mp hx
          simp [Target.late]
        · exact fun _ _ _ => hown hc.tied.scale _
      · intro s
        exact ⟨fun x hx => List.mem_append_left _ hx, hown hc.tied.effective.2 _,
          fun _ _ _ => hown hc.tied.effective.2 _⟩
      · intro s q hq
        refine ⟨?_, hq, ?_⟩
        · intro x hx
          obtain rfl := List.mem_singleton.mp hx
          simp [Target.late]
        · intro x hx hearly
          obtain rfl := List.mem_singleton.mp hx
          exact absurd hearly hcancel

end Requests

/-- **Commands and actions close their loops through delays.**  Let a target
that is made from plain expressions be compiled with the rules of the library,
with any parameters and host, and with plain observed expressions.  Then there
is a network, or an error that is not about loops: no placeholder lacks a
source or has two of them, no input lacks a producer, and there is no cycle. -/
theorem Compiler.plain_request_closes_loops {α : Type} [Scalar α] {settings : Settings α}
    {pool : Pool α} (hpool : pool.Reachable) {host : Host α} {request : Request α}
    (hrequest : request.Plain pool) :
    (∃ net, Compiler.compile ⟨.standard, settings⟩ pool host request = .ok net) ∨
      ∃ e, Compiler.compile ⟨.standard, settings⟩ pool host request = .error e ∧
        e.aboutLoops = false := by
  let program : Program α := ⟨pool, .standard, request.parameters, settings, host⟩
  have hprogram : program.Regular := ⟨hpool.wellFormed, rfl⟩
  have hlawful : (Session.closing program request.target.early request.target.late).Lawful
      program := Session.closing_lawful hprogram
  have hempty : Session.Closing program request.target.early request.target.late .empty :=
    Session.closing_empty
  have hsafe : (Session.closing program request.target.early request.target.late).Safe
      (Session.compile program request) .empty fun _ _ => True := by
    refine hlawful.compile hrequest.roots hrequest.target.sources ?_
    -- The sources that the target has collected are there at the end.
    intro target t hrun t' ht' hgrows
    have hcovers := Session.lowerTarget_covers hempty.wired hrun
    exact Session.closing_finish hprogram (hcovers.grow hgrows)
  unfold Compiler.compile
  cases hcheck : settings.check with
  | error e => exact Or.inr ⟨.settings e, rfl, rfl⟩
  | ok u =>
      have hharmless := (hsafe hempty).2
      dsimp only [program] at hharmless ⊢
      cases hrun : Session.compile ⟨pool, .standard, request.parameters, settings, host⟩ request
        .empty with
      | ok net s => exact Or.inl ⟨net, rfl⟩
      | error e s => exact Or.inr ⟨e, rfl, hharmless e s hrun⟩

/-- A pool with two positions, a speed and a switch. -/
def Sample.rails : Pool Float :=
  Pool.performAll [.constant (.double 0), .input "target" .double .global,
    .input "speed" .double .global, .input "free" .boolean .global] { folding := true }

/-- A command that ramps, and cancels itself when it has come to its target
and is not free to stay. -/
def Sample.bounce : Building Float (Command Float) := do
  let ramp ← Action.ramp "ramp" "x" 0 1 1
  let command ← Command.new "go" .global (ramp.wrap "outer") (some 0.5)
  let faster ← command.withOverride 2
  return faster.on (.and [.of .completed, .not (.condition 3)]) .cancel

theorem Sample.rails_plain (id : ExprId) (hid : id < 4) : Sample.rails.Plain id := by
  have hleaf : ∀ (x : ExprId) (form : Form Float), Sample.rails.Holds x form →
      form.dependencies = [] → (∀ number label, form ≠ .placeholder number label) →
      Sample.rails.Plain x :=
    fun x form h hnone hform =>
      h.confined_leaf hnone fun number label heq => absurd heq (hform number label)
  match id, hid with
  | 0, _ => exact @hleaf 0 (.constant (.double 0)) ⟨_, rfl, rfl⟩ rfl (by simp)
  | 1, _ => exact @hleaf 1 (.input "target") ⟨_, rfl, rfl⟩ rfl (by simp)
  | 2, _ => exact @hleaf 2 (.input "speed") ⟨_, rfl, rfl⟩ rfl (by simp)
  | 3, _ => exact @hleaf 3 (.input "free") ⟨_, rfl, rfl⟩ rfl (by simp)

/-- The loops of this command do not stop it from being compiled. -/
theorem Compiler.bounce_closes_loops : ∃ c p, Sample.bounce Sample.rails = .ok c p ∧
    p.Reachable ∧ (⟨.command c, {}, [1]⟩ : Request Float).Plain p ∧
    ((∃ net, Compiler.compile ⟨.standard, .standard⟩ p .offline ⟨.command c, {}, [1]⟩ = .ok net) ∨
      ∃ e, Compiler.compile ⟨.standard, .standard⟩ p .offline ⟨.command c, {}, [1]⟩ = .error e ∧
        e.aboutLoops = false) := by
  have hbuilds : (match Sample.bounce Sample.rails with
      | .ok c p => (c.action.conditions ++ c.conditions ++ c.kept p).all fun id => decide (id < 4)
      | .error _ _ => false) = true := by decide +kernel
  cases hbounce : Sample.bounce Sample.rails with
  | error e p => simp [hbounce] at hbuilds
  | ok c p =>
      simp only [hbounce, List.all_eq_true, decide_eq_true_eq] at hbuilds
      have hrails : Sample.rails.Reachable := ⟨true, _, rfl⟩
      obtain ⟨ramp, p₁, hramp, hafter⟩ := bind_eq_ok.mp hbounce
      obtain ⟨command, p₂, hcommand, hafter⟩ := bind_eq_ok.mp hafter
      obtain ⟨faster, p₃, hfaster, hafter⟩ := bind_eq_ok.mp hafter
      obtain ⟨rfl, rfl⟩ := pure_eq_ok.mp hafter
      have hfollows₁ := Action.ramp_composed "ramp" "x" 0 1 (1 : Float) Sample.rails
      rw [hramp] at hfollows₁
      have hfollows₂ := Command.new_composed "go" .global (ramp.wrap "outer") (some (0.5 : Float)) p₁
      rw [hcommand] at hfollows₂
      have hfollows₃ := Command.withOverride_composed command 2 p₂
      rw [hfaster] at hfollows₃
      have hp₁ := hrails.follows hfollows₁
      have hp₂ := hp₁.follows hfollows₂
      have hp₃ := hp₂.follows hfollows₃
      have hextends₂ : Sample.rails.Extends p₂ :=
        (hrails.extends_of_follows hfollows₁).trans (hp₁.extends_of_follows hfollows₂)
      have hextends₃ := hextends₂.trans (hp₂.extends_of_follows hfollows₃)
      have hplain : ∀ q, Sample.rails.Extends q → ∀ id < 4, q.Plain id := fun q hq id hid =>
        Pool.Plain.extend hrails.wellFormed hq hid (Sample.rails_plain id hid)
      -- The command is made from the expressions of the first pool.
      have hmade : (ramp.wrap "outer").Plain p₁ :=
        .wrap (.ramp hrails (Sample.rails_plain 0 (by decide)) (Sample.rails_plain 1 (by decide))
          hramp) _
      have hplainCommand := (Command.Plain.withOverride hp₂ (.new hp₁ hmade hcommand)
        (hplain _ hextends₂ 2 (by decide)) hfaster).on
        (.and [.of .completed, .not (.condition 3)]) .cancel
      have hrequest : (⟨.command (faster.on (.and [.of .completed, .not (.condition 3)]) .cancel),
          {}, [1]⟩ : Request Float).Plain p₃ := by
        refine ⟨⟨hplainCommand, ?_⟩, ?_⟩
        · exact fun id hid => hplain _ hextends₃ id (hbuilds id hid)
        · intro id hid
          exact hplain _ hextends₃ id (List.mem_singleton.mp hid ▸ by decide)
      exact ⟨_, _, rfl, hp₃, hrequest, Compiler.plain_request_closes_loops hp₃ hrequest⟩

end SignalNet
