import SignalNet.Proofs.Net.Reaction
import SignalNet.Proofs.Net.Sweep

/-!
# What a cycle computes

What a cycle leaves does not speak of the evaluation order any more: every
block has put out what it makes of the values that its sources carry after the
cycle (`Simulator.Cycled`).

* `Simulator.step_eq_ok` describes a completed cycle block by block.
* `Simulator.evaluate_refuses` says how the evaluation of a block can fail.
* `Simulator.step_cases` says how a cycle ends: it is completed, or it stops at
  the evaluation of a block whose sources have all been evaluated.
-/

namespace SignalNet.Simulator

open Computing

variable {α : Type} [Scalar α]

/-- What a block has done in a completed cycle from `s` to `s'`. -/
inductive Cycled (s s' : Simulator α) (b : BlockId) (blk : Block α) : Prop
  | delay {initial v : Value α} {q : PortId} (hprimitive : blk.primitive = .pre initial)
      (houtput : blk.output = some q) (hvalue : s'.value? q = some (s.delayed b initial))
      (hargs : Carries s.fragment s'.value? blk.inputs [v])
      (hmemory : s'.memories.get? b = some (.delay v))
  | sink {slot : Nat} (hprimitive : blk.primitive = .store slot)
      (hmemory : s'.memories.get? b = s.memories.get? b)
  | reaction {args : List (Value α)} {q : PortId} {kind : Kind} {v : Value α}
      {m : Option (Memory α)} (hdelay : blk.primitive.isDelay = false)
      (hsink : blk.primitive.isSink = false)
      (hargs : Carries s.fragment s'.value? blk.inputs args) (houtput : blk.output = some q)
      (hkind : s.fragment.kindOf q = .ok kind)
      (hreact : blk.primitive.react s.around kind (s.memories.get? b) args = .ok (v, m))
      (hvalue : s'.value? q = some v) (hmemory : s'.memories.get? b = m.or (s.memories.get? b))

/-- A completed cycle. -/
structure Cycle (s s' : Simulator α) : Prop where
  fragment : s'.fragment = s.fragment
  order : s'.order = s.order
  cycles : s'.cycles = s.cycles + 1
  period : s'.around.period = s.around.period
  time : s'.around.time = s.around.time + s.around.period
  inputs : s'.around.inputs = s.around.inputs
  sensors : s'.around.sensors = s.around.sensors
  slots : (∀ {b : BlockId} {blk : Block α}, s.fragment.blocks[b]? = some blk →
    blk.primitive.isSink = false) → s'.around.slots = s.around.slots
  blocks : ∀ {b : BlockId} {blk : Block α}, s.fragment.blocks[b]? = some blk → Cycled s s' b blk

/-- A cycle is a sweep of evaluations, a sweep of conclusions and a tick. -/
theorem step_apply (s : Simulator α) :
    step s = match sweep evaluate s.order s with
      | .error e s' => .error e s'
      | .ok _ s₁ =>
        match sweep conclude s.order s₁ with
        | .error e s' => .error e s'
        | .ok _ s₂ => .ok () (tick s₂) := by
  unfold step
  rw [get_bind]
  cases hfirst : sweep evaluate s.order s with
  | error e s' => exact bind_of_error hfirst
  | ok _ s₁ =>
      rw [bind_of_ok hfirst]
      dsimp only
      cases hsecond : sweep conclude s.order s₁ with
      | error e s' => exact bind_of_error hsecond
      | ok _ s₂ => exact bind_of_ok hsecond

/-- The first half of a cycle. -/
theorem evaluate_sweep {s : Simulator α} (hf : s.fragment.WellFormed)
    (hschedule : s.fragment.Schedules s.order) :
    (∃ s₁, sweep evaluate s.order s = .ok () s₁ ∧ Progress s s.order s₁) ∨
      ∃ done b rest e s', s.order = done ++ b :: rest ∧
        sweep evaluate s.order s = .error e s' ∧ Progress s done s' ∧ s'.evaluate b = .error e :=
  sweep_cases (fun hsplit hdone hact => hdone.evaluate hf hschedule hsplit hact)
    (progress_refl s)

omit [Scalar α] in
/-- The second half of a cycle. -/
theorem conclude_sweep {s₁ : Simulator α} (hf : s₁.fragment.WellFormed) {order : List BlockId}
    (hnodup : order.Nodup) :
    (∃ s₂, sweep conclude order s₁ = .ok () s₂ ∧ Concluding s₁ order s₂) ∨
      ∃ done b rest e s', order = done ++ b :: rest ∧
        sweep conclude order s₁ = .error e s' ∧ Concluding s₁ done s' ∧
        s'.conclude b = .error e :=
  sweep_cases (fun hsplit hdone hact => hdone.conclude hf hnodup hsplit hact)
    (concluding_refl s₁)

/-- What a completed first half and a completed second half do together. -/
theorem Settled.cycled {s s₁ s₂ : Simulator α} {b : BlockId} {blk : Block α}
    (h : Settled s s₁ b blk) (hblk : s.fragment.blocks[b]? = some blk)
    (hfragment : s₁.fragment = s.fragment) (hb : b ∈ s.order)
    (hconcluding : Concluding s₁ s.order s₂) : Cycled s s₂ b blk := by
  have hvalue : s₂.value? = s₁.value? := by
    funext q
    unfold value?
    rw [hconcluding.values]
  have hblk₁ : s₁.fragment.blocks[b]? = some blk := by
    rw [hfragment]
    exact hblk
  cases h with
  | delay hprimitive hout hvalue₁ hmem =>
      obtain ⟨v, hargs, hmemory⟩ :=
        hconcluding.delays hb hblk₁ (by rw [hprimitive]; rfl)
      rw [hfragment, ← hvalue] at hargs
      exact .delay hprimitive hout ((congrFun hvalue _).trans hvalue₁) hargs hmemory
  | sink hprimitive hmem =>
      exact .sink hprimitive
        ((hconcluding.others hblk₁ (by rw [hprimitive]; rfl)).trans hmem)
  | reaction hdelay hsink hargs hout hkind hreact hvalue₁ hmem =>
      rw [← hvalue] at hargs
      exact .reaction hdelay hsink hargs hout hkind hreact ((congrFun hvalue _).trans hvalue₁)
        ((hconcluding.others hblk₁ hdelay).trans hmem)

/-- **A completed cycle, block by block.** -/
theorem step_eq_ok {s s' : Simulator α} (hf : s.fragment.WellFormed)
    (hschedule : s.fragment.Schedules s.order) {u : Unit} (h : step s = .ok u s') :
    Cycle s s' := by
  rw [step_apply] at h
  rcases evaluate_sweep hf hschedule with ⟨s₁, hsweep, hprogress⟩ |
    ⟨done, b, rest, e, s₁, -, hsweep, -⟩
  · have hf₁ : s₁.fragment.WellFormed := by
      rw [hprogress.fragment]
      exact hf
    simp only [hsweep] at h
    rcases conclude_sweep hf₁ hschedule.nodup with ⟨s₂, hsweep₂, hconcluding⟩ |
      ⟨done, b, rest, e, s₂, -, hsweep₂, -⟩
    · simp only [hsweep₂] at h
      cases h
      refine ⟨hconcluding.fragment.trans hprogress.fragment,
        hconcluding.order.trans hprogress.order, ?_, ?_, ?_, ?_, ?_, ?_, ?_⟩
      · show s₂.cycles + 1 = s.cycles + 1
        rw [hconcluding.cycles, hprogress.cycles]
      · show s₂.around.period = s.around.period
        rw [hconcluding.period, hprogress.around]
      · show s₂.around.time + s₂.around.period = s.around.time + s.around.period
        rw [hconcluding.time, hconcluding.period, hprogress.around]
      · show s₂.around.inputs = s.around.inputs
        rw [hconcluding.inputs, hprogress.around]
      · show s₂.around.sensors = s.around.sensors
        rw [hconcluding.sensors, hprogress.around]
      · intro hnosink
        show s₂.around.slots = s.around.slots
        rw [← hprogress.around]
        apply hconcluding.slots
        rw [hprogress.fragment]
        exact hnosink
      · intro b blk hblk
        have hb : b ∈ s.order :=
          (hschedule.complete b).mpr (List.getElem?_eq_some_iff.mp hblk).1
        obtain ⟨blk', hblk', hsettled⟩ := hprogress.settled hb
        rw [hblk] at hblk'
        cases hblk'
        have hcycled := hsettled.cycled hblk hprogress.fragment hb hconcluding
        cases hcycled with
        | delay hprimitive hout hvalue hargs hmem =>
            exact .delay hprimitive hout hvalue hargs hmem
        | sink hprimitive hmem => exact .sink hprimitive hmem
        | reaction hdelay hsink hargs hout hkind hreact hvalue hmem =>
            exact .reaction hdelay hsink hargs hout hkind hreact hvalue hmem
    · simp only [hsweep₂] at h
      cases h
  · simp only [hsweep] at h
    cases h

omit [Scalar α] in
/-- The inputs of a block carry values once its sources do. -/
theorem exists_carries {f : Fragment α} {values : PortId → Option (Value α)}
    {inputs : List PortId}
    (h : ∀ input ∈ inputs, ∃ source, f.producer? input = some source ∧ (values source).isSome) :
    ∃ args, Carries f values inputs args := by
  induction inputs with
  | nil => exact ⟨[], List.Forall₂.nil⟩
  | cons input rest ih =>
      obtain ⟨source, hproducer, hsome⟩ := h input (by simp)
      obtain ⟨v, hv⟩ := Option.isSome_iff_exists.mp hsome
      obtain ⟨args, hargs⟩ := ih fun i hi => h i (by simp [hi])
      exact ⟨v :: args, List.Forall₂.cons ⟨source, hproducer, hv⟩ hargs⟩

/-- Where the sources of a block belong to settled blocks, its inputs carry
values. -/
theorem Progress.carries {s₀ s : Simulator α} {done : List BlockId} {b : BlockId} {blk : Block α}
    (hf : s₀.fragment.WellFormed) (hfed : s₀.fragment.openInput? = none)
    (h : Progress s₀ done s) (hblk : s₀.fragment.blocks[b]? = some blk)
    (hsources : ∀ {input source : PortId}, input ∈ blk.inputs →
      s₀.fragment.producer? input = some source → ∀ {port : Port},
      s₀.fragment.ports[source]? = some port → port.block ∈ done) :
    ∃ args, Carries s₀.fragment s.value? blk.inputs args := by
  apply exists_carries
  intro input hinput
  obtain ⟨i, hi⟩ := List.mem_iff_getElem?.mp hinput
  obtain ⟨kind, hport⟩ := hf.inputs hblk hi
  obtain ⟨source, hsource⟩ := Fragment.openInput?_eq_none hfed hport rfl
  obtain ⟨port, -, hsourcePort, -, hout, -⟩ :=
    hf.wires _ (hf.producer?_eq_some_iff.mp hsource)
  obtain ⟨owner, howner, -, houtput⟩ := hf.owner hsourcePort
  obtain ⟨owner', howner', hsettled⟩ := h.settled (hsources hinput hsource hsourcePort)
  rw [howner] at howner'
  cases howner'
  obtain ⟨v, hv⟩ := hsettled.value (hf.sink howner) (houtput hout)
  exact ⟨source, hsource, by rw [hv]; rfl⟩

/-! ### Blocks that fail -/

/-- The error of a block that does not react to its arguments. -/
def refusal (b : BlockId) (blk : Block α) (args : List (Value α)) : Fault → SimError α
  | .rejected => .rejected blk.primitive.name b args
  | .emptyRange => .emptyRange b

/-- All inputs of a block that is no delay carry values, and its primitive does
not react to them. -/
structure Refuses (s : Simulator α) (b : BlockId) (blk : Block α) (args : List (Value α))
    (fault : Fault) : Prop where
  block : s.fragment.blocks[b]? = some blk
  noDelay : blk.primitive.isDelay = false
  carries : Carries s.fragment s.value? blk.inputs args
  reacts : ∃ q kind, blk.output = some q ∧ s.fragment.kindOf q = .ok kind ∧
    blk.primitive.react s.around kind (s.memories.get? b) args = .error fault

/-- **How an evaluation fails.**  If the inputs of a block carry values, its
evaluation can only fail because its primitive does not react to them. -/
theorem evaluate_refuses {s : Simulator α} (hf : s.fragment.WellFormed) {b : BlockId}
    {blk : Block α} {e : SimError α} (hblk : s.fragment.blocks[b]? = some blk)
    (hcarries : blk.primitive.isDelay = false →
      ∃ args, Carries s.fragment s.value? blk.inputs args)
    (h : s.evaluate b = .error e) :
    ∃ args fault, Refuses s b blk args fault ∧ e = refusal b blk args fault := by
  have hsink := hf.sink hblk
  cases hout : blk.output with
  | none =>
      -- A sink does nothing in the first half of a cycle.
      rw [hout] at hsink
      cases hprimitive : blk.primitive with
      | store slot => simp [evaluate, blockAt_eq_ok.mpr hblk, hprimitive] at h
      | _ =>
          rw [hprimitive] at hsink
          cases hsink
  | some q =>
      rw [hout] at hsink
      by_cases hdelay : blk.primitive.isDelay = true
      · cases hprimitive : blk.primitive with
        | pre initial => simp [evaluate, blockAt_eq_ok.mpr hblk, hprimitive, hout] at h
        | _ =>
            rw [hprimitive] at hdelay
            cases hdelay
      · have hnodelay : blk.primitive.isDelay = false := by simpa using hdelay
        obtain ⟨args, hargs⟩ := hcarries hnodelay
        obtain ⟨kind, hport⟩ := hf.output hblk hout
        have hkind : s.fragment.kindOf q = .ok kind := Fragment.kindOf_eq_ok.mpr ⟨_, hport, rfl⟩
        rw [evaluate_reaction hblk hnodelay hsink hargs hout hkind] at h
        cases hreact : blk.primitive.react s.around kind (s.memories.get? b) args with
        | ok result => simp [hreact] at h
        | error fault =>
            refine ⟨args, fault, ⟨hblk, hnodelay, hargs, q, kind, hout, hkind, hreact⟩, ?_⟩
            cases fault <;> simp only [hreact, Except.error.injEq] at h <;> exact h.symm

/-- When all blocks have been evaluated, all of them carry values, so nothing can
go wrong in the second half of a cycle. -/
theorem Progress.concludes {s s₁ : Simulator α} (hf : s.fragment.WellFormed)
    (hschedule : s.fragment.Schedules s.order) (hfed : s.fragment.openInput? = none)
    (hprogress : Progress s s.order s₁) :
    ∃ s₂, sweep conclude s.order s₁ = .ok () s₂ ∧ Concluding s₁ s.order s₂ := by
  have hf₁ : s₁.fragment.WellFormed := by
    rw [hprogress.fragment]
    exact hf
  rcases conclude_sweep hf₁ hschedule.nodup with hdone |
    ⟨done, b, rest, e, s₂, hsplit, -, hconcluding, herror⟩
  · exact hdone
  · exfalso
    have hb : b < s.fragment.blocks.length :=
      (hschedule.complete b).mp (by rw [hsplit]; simp)
    obtain ⟨blk, hblk⟩ : ∃ blk, s.fragment.blocks[b]? = some blk :=
      ⟨_, List.getElem?_eq_getElem hb⟩
    obtain ⟨args, hargs⟩ := hprogress.carries hf hfed hblk fun _ _ _ hport => by
      obtain ⟨owner, howner, -⟩ := hf.owner hport
      exact (hschedule.complete _).mpr (List.getElem?_eq_some_iff.mp howner).1
    have hvalue : s₂.value? = s₁.value? := by
      funext q
      unfold value?
      rw [hconcluding.values]
    have hfragment : s₂.fragment = s.fragment :=
      hconcluding.fragment.trans hprogress.fragment
    rw [← hfragment, ← hvalue] at hargs
    obtain ⟨s₃, hs₃⟩ := conclude_total (by rw [hfragment]; exact hblk) hargs
    rw [herror] at hs₃
    cases hs₃

/-- **How a cycle ends.**  A cycle of a complete network is completed, or it
stops at the evaluation of a block, and all blocks in front of that one have
been evaluated by then. -/
theorem step_cases {s : Simulator α} (hf : s.fragment.WellFormed)
    (hschedule : s.fragment.Schedules s.order) (hfed : s.fragment.openInput? = none) :
    (∃ s₁ s₂, Progress s s.order s₁ ∧ Concluding s₁ s.order s₂ ∧ step s = .ok () (tick s₂)) ∨
      ∃ done b rest e s', s.order = done ++ b :: rest ∧ Progress s done s' ∧
        s'.evaluate b = .error e ∧ step s = .error e s' := by
  rw [step_apply]
  rcases evaluate_sweep hf hschedule with ⟨s₁, hsweep, hprogress⟩ |
    ⟨done, b, rest, e, s', hsplit, hsweep, hprogress, herror⟩
  · obtain ⟨s₂, hsweep₂, hconcluding⟩ := hprogress.concludes hf hschedule hfed
    exact Or.inl ⟨s₁, s₂, hprogress, hconcluding, by simp only [hsweep, hsweep₂]⟩
  · exact Or.inr ⟨done, b, rest, e, s', hsplit, hprogress, herror, by simp only [hsweep]⟩

/-- A cycle that fails does so in its first half. -/
theorem step_eq_error {s s' : Simulator α} (hf : s.fragment.WellFormed)
    (hschedule : s.fragment.Schedules s.order) (hfed : s.fragment.openInput? = none)
    {e : SimError α} (h : step s = .error e s') :
    sweep evaluate s.order s = .error e s' := by
  rw [step_apply] at h
  rcases evaluate_sweep hf hschedule with ⟨s₁, hsweep, hprogress⟩ |
    ⟨-, -, -, e', s₁, -, hsweep, -⟩
  · obtain ⟨s₂, hsweep₂, -⟩ := hprogress.concludes hf hschedule hfed
    simp only [hsweep, hsweep₂] at h
    cases h
  · simp only [hsweep] at h
    cases h
    exact hsweep

/-! ### What blocks make of their sources -/

section Blocks

variable {s s' : Simulator α} {q : PortId} {primitive : Primitive α} {sources : List PortId}
  {kind : Kind} {b : BlockId} {blk : Block α}

/-- What a settled block that is no delay has put out. -/
theorem Settled.produces (h : Settled s s' b blk) (hf : s.fragment.WellFormed)
    (hq : s.fragment.Produces q primitive sources kind b blk)
    (hdelay : primitive.isDelay = false) :
    ∃ args v m, Carries s.fragment s'.value? blk.inputs args ∧
      primitive.react s.around kind (s.memories.get? b) args = .ok (v, m) ∧
      s'.value? q = some v ∧ s'.memories.get? b = m.or (s.memories.get? b) := by
  cases h with
  | delay hprimitive _ _ _ =>
      rw [hq.primitive] at hprimitive
      rw [hprimitive] at hdelay
      cases hdelay
  | sink hprimitive _ =>
      have hsink := hf.sink hq.block
      rw [hprimitive, hq.output] at hsink
      cases hsink
  | reaction _ _ hargs houtput hkind hreact hvalue hmemory =>
      rw [hq.output] at houtput
      cases houtput
      obtain ⟨port, hport, rfl⟩ := Fragment.kindOf_eq_ok.mp hkind
      rw [hq.port] at hport
      cases hport
      rw [hq.primitive] at hreact
      exact ⟨_, _, _, hargs, hreact, hvalue, hmemory⟩

/-- What a settled delay has put out. -/
theorem Settled.produces_delay {initial : Value α} (h : Settled s s' b blk)
    (hq : s.fragment.Produces q (.pre initial) sources kind b blk) :
    s'.value? q = some (s.delayed b initial) := by
  cases h with
  | delay hprimitive houtput hvalue _ =>
      rw [hq.primitive] at hprimitive
      cases hprimitive
      rw [hq.output] at houtput
      cases houtput
      exact hvalue
  | sink hprimitive _ =>
      rw [hq.primitive] at hprimitive
      cases hprimitive
  | reaction hdelay _ _ _ _ _ _ _ =>
      rw [hq.primitive] at hdelay
      cases hdelay

/-- A block that is no delay has done in a cycle what settles it. -/
theorem Cycled.settled (h : Cycled s s' b blk) (hdelay : blk.primitive.isDelay = false) :
    Settled s s' b blk := by
  cases h with
  | delay hprimitive _ _ _ _ =>
      rw [hprimitive] at hdelay
      cases hdelay
  | sink hprimitive hmemory => exact .sink hprimitive hmemory
  | reaction hdelay hsink hargs houtput hkind hreact hvalue hmemory =>
      exact .reaction hdelay hsink hargs houtput hkind hreact hvalue hmemory

/-- What a block that is no delay makes of its sources in a cycle. -/
theorem Cycle.produces (h : Cycle s s') (hf : s.fragment.WellFormed)
    (hq : s.fragment.Produces q primitive sources kind b blk)
    (hdelay : primitive.isDelay = false) :
    ∃ args v m, List.Forall₂ (fun source a => s'.value? source = some a) sources args ∧
      primitive.react s.around kind (s.memories.get? b) args = .ok (v, m) ∧
      s'.value? q = some v ∧ s'.memories.get? b = m.or (s.memories.get? b) := by
  have hsettled := (h.blocks hq.block).settled (by rw [hq.primitive]; exact hdelay)
  obtain ⟨args, v, m, hargs, hreact, hvalue, hmemory⟩ := hsettled.produces hf hq hdelay
  exact ⟨args, v, m, hargs.of_fed hq.fed, hreact, hvalue, hmemory⟩

/-- What a delay does in a cycle. -/
theorem Cycle.produces_delay {initial : Value α} (h : Cycle s s')
    (hq : s.fragment.Produces q (.pre initial) sources kind b blk) :
    ∃ v, List.Forall₂ (fun source a => s'.value? source = some a) sources [v] ∧
      s'.value? q = some (s.delayed b initial) ∧ s'.memories.get? b = some (.delay v) := by
  have hcycled := h.blocks hq.block
  cases hcycled with
  | delay hprimitive houtput hvalue hargs hmemory =>
      rw [hq.primitive] at hprimitive
      cases hprimitive
      rw [hq.output] at houtput
      cases houtput
      exact ⟨_, hargs.of_fed hq.fed, hvalue, hmemory⟩
  | sink hprimitive _ =>
      rw [hq.primitive] at hprimitive
      cases hprimitive
  | reaction hdelay _ _ _ _ _ _ _ =>
      rw [hq.primitive] at hdelay
      cases hdelay

/-- A block without memory. -/
theorem Cycle.makes (h : Cycle s s') (hf : s.fragment.WellFormed)
    (hq : s.fragment.Makes q primitive sources kind) (hdelay : primitive.isDelay = false) :
    ∃ args v m memory, List.Forall₂ (fun source a => s'.value? source = some a) sources args ∧
      primitive.react s.around kind memory args = .ok (v, m) ∧ s'.value? q = some v := by
  obtain ⟨b, blk, hproduces⟩ := hq
  obtain ⟨args, v, m, hargs, hreact, hvalue, -⟩ := h.produces hf hproduces hdelay
  exact ⟨args, v, m, _, hargs, hreact, hvalue⟩

/-- The block of a constant puts out the constant. -/
theorem Cycle.constant {v : Value α} (h : Cycle s s') (hf : s.fragment.WellFormed)
    (hq : s.fragment.Makes q (.constant v) [] kind) : s'.value? q = some v := by
  obtain ⟨args, w, m, memory, hargs, hreact, hvalue⟩ := h.makes hf hq rfl
  cases hargs
  cases hreact
  exact hvalue

/-- The sources of a connective carry booleans after a completed cycle. -/
theorem Cycle.connective (h : Cycle s s') (hf : s.fragment.WellFormed)
    (hq : s.fragment.Makes q primitive sources kind) {f : List Bool → Bool}
    (hconnective : primitive.connective? = some f) :
    ∃ bs, List.Forall₂ (fun source b => s'.value? source = some (.boolean b)) sources bs ∧
      s'.value? q = some (.boolean (f bs)) := by
  have hdelay : primitive.isDelay = false := by
    cases primitive <;> cases hconnective <;> rfl
  obtain ⟨args, v, m, memory, hargs, hreact, hvalue⟩ := h.makes hf hq hdelay
  obtain ⟨bs, rfl, rfl, -⟩ := (Primitive.react_connective_eq_ok hconnective).mp hreact
  rw [List.forall₂_map_right_iff] at hargs
  exact ⟨bs, hargs, hvalue⟩

end Blocks

end SignalNet.Simulator
