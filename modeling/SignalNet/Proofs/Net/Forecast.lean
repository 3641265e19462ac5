import SignalNet.Proofs.Net.Cycle

/-!
# Forecasts of a cycle

An outlook says which values some ports of a network are expected to carry
after the next cycle, such that every value is what the block of its port puts
out: a delay what it remembers, any other block what it makes of the values
expected at its sources (`Simulator.Outlook`).

If the cycle is completed, an outlook comes true (`Simulator.Outlook.value`).
The argument goes along the evaluation order: when a block is evaluated, its
sources carry the expected values already (`Simulator.Outlook.settled`), so
its reaction is the one expected.  An outlook on all outputs tells that the
cycle is completed (`Simulator.Outlook.step`).

A forecast (`Simulator.Forecast`) is an outlook on all blocks of a network
without delays and sinks.
-/

namespace SignalNet.Simulator

open Computing

variable {α : Type} [Scalar α]

/-- A block puts out the value `v` at its port, if its sources carry what `E`
expects of them. -/
inductive Foreseen (s : Simulator α) (E : PortId → Value α → Prop) (q : PortId) (v : Value α) :
    Prop
  | delay {initial : Value α} {sources : List PortId} {kind : Kind} {b : BlockId}
      {blk : Block α} (hproduces : s.fragment.Produces q (.pre initial) sources kind b blk)
      (hvalue : v = s.delayed b initial)
  | reaction {primitive : Primitive α} {sources : List PortId} {kind : Kind} {b : BlockId}
      {blk : Block α} {args : List (Value α)} {m : Option (Memory α)}
      (hproduces : s.fragment.Produces q primitive sources kind b blk)
      (hdelay : primitive.isDelay = false) (hargs : List.Forall₂ E sources args)
      (hreact : primitive.react s.around kind (s.memories.get? b) args = .ok (v, m))

/-- What `E` expects is what the blocks put out. -/
def Outlook (s : Simulator α) (E : PortId → Value α → Prop) : Prop :=
  ∀ q v, E q v → Foreseen s E q v

variable {s s' : Simulator α} {E : PortId → Value α → Prop}

omit [Scalar α] in
/-- Inputs whose sources carry the expected values carry them too. -/
theorem carries_of_expected {f : Fragment α} {values : PortId → Option (Value α)}
    {inputs sources : List PortId} {args : List (Value α)}
    (hfed : List.Forall₂ (fun input source => f.producer? input = some source) inputs sources)
    (hexpected : List.Forall₂ E sources args)
    (hvalues : ∀ {input source : PortId} {v : Value α}, input ∈ inputs →
      f.producer? input = some source → E source v → values source = some v) :
    Carries f values inputs args := by
  induction hfed generalizing args with
  | nil =>
      cases hexpected
      exact List.Forall₂.nil
  | cons hsource _ ih =>
      cases hexpected with
      | cons hv hrest =>
          refine List.Forall₂.cons ⟨_, hsource, hvalues (by simp) hsource hv⟩ ?_
          exact ih hrest fun hinput => hvalues (by simp [hinput])

theorem Foreseen.block {q : PortId} {v : Value α} (h : Foreseen s E q v) :
    ∃ primitive sources kind b blk, s.fragment.Produces q primitive sources kind b blk := by
  cases h with
  | delay hproduces _ => exact ⟨_, _, _, _, _, hproduces⟩
  | reaction hproduces _ _ _ => exact ⟨_, _, _, _, _, hproduces⟩

/-- The blocks that have been evaluated have put out the expected values. -/
theorem Outlook.settled (h : Outlook s E) (hf : s.fragment.WellFormed)
    (hschedule : s.fragment.Schedules s.order) {done rest : List BlockId}
    (hsplit : s.order = done ++ rest) (hprogress : Progress s done s') {q : PortId} {v : Value α}
    (hq : E q v) {port : Port} (hport : s.fragment.ports[q]? = some port)
    (hdone : port.block ∈ done) : s'.value? q = some v := by
  -- The induction is on the number of blocks in front of the one at hand.
  obtain ⟨before, after, hparts⟩ := List.append_of_mem hdone
  induction hlength : before.length using Nat.strongRecOn generalizing before after q v port with
  | ind n ih =>
      cases h _ _ hq with
      | @delay initial sources kind b blk hproduces hv =>
          have hown := hproduces.port
          rw [hport] at hown
          cases hown
          obtain ⟨blk', hblk', hsettled⟩ := hprogress.settled hdone
          rw [hproduces.block] at hblk'
          cases hblk'
          rw [hsettled.produces_delay hproduces, hv]
      | @reaction primitive sources kind b blk args m hproduces hdelay hargs hreact =>
          have hown := hproduces.port
          rw [hport] at hown
          cases hown
          have horder : s.order = before ++ b :: (after ++ rest) := by
            rw [hsplit, hparts]
            simp
          have hnodelay : blk.primitive.isDelay = false := by
            rw [hproduces.primitive]
            exact hdelay
          obtain ⟨blk', hblk', hsettled⟩ := hprogress.settled hdone
          rw [hproduces.block] at hblk'
          cases hblk'
          obtain ⟨args', v', m', hcarries, hreact', hvalue, -⟩ :=
            hsettled.produces hf hproduces hdelay
          have hexpected : Carries s.fragment s'.value? blk.inputs args := by
            refine carries_of_expected hproduces.fed hargs ?_
            intro input source w hinput hsource hw
            obtain ⟨port', hport'⟩ := source_port hf hsource
            have hfront := hschedule.fed horder hproduces.block hnodelay hinput hsource hport'
            obtain ⟨front, back, hfrontParts⟩ := List.append_of_mem hfront
            refine ih front.length ?_ hw hport' ?_ front (back ++ b :: after) ?_ rfl
            · rw [← hlength, hfrontParts]
              simp
            · rw [hparts]
              exact List.mem_append_left _ hfront
            · rw [hparts, hfrontParts]
              simp
          rw [hcarries.unique hexpected, hreact] at hreact'
          cases hreact'
          exact hvalue

/-- Expected values are there once the first half of a cycle is completed, and
stay in the second half. -/
theorem Outlook.concluded (h : Outlook s E) (hf : s.fragment.WellFormed)
    (hschedule : s.fragment.Schedules s.order) {s₁ s₂ : Simulator α}
    (hprogress : Progress s s.order s₁) (hconcluding : Concluding s₁ s.order s₂) {q : PortId}
    {v : Value α} (hq : E q v) : (tick s₂).value? q = some v := by
  obtain ⟨primitive, sources, kind, b, blk, hproduces⟩ := (h _ _ hq).block
  have hb : b ∈ s.order :=
    (hschedule.complete b).mpr (List.getElem?_eq_some_iff.mp hproduces.block).1
  have hvalue := h.settled hf hschedule (List.append_nil s.order).symm hprogress hq
    hproduces.port hb
  show s₂.values.get? q = some v
  rw [hconcluding.values]
  exact hvalue

/-- **An outlook comes true** in a completed cycle. -/
theorem Outlook.value (h : Outlook s E) (hf : s.fragment.WellFormed)
    (hschedule : s.fragment.Schedules s.order) (hfed : s.fragment.openInput? = none)
    (hstep : Simulator.step s = .ok () s') {q : PortId} {v : Value α} (hq : E q v) :
    s'.value? q = some v := by
  rcases step_cases hf hschedule hfed with ⟨s₁, s₂, hprogress, hconcluding, hok⟩ |
    ⟨_, _, _, _, _, _, _, _, herror⟩
  · rw [hok] at hstep
    cases hstep
    exact h.concluded hf hschedule hprogress hconcluding hq
  · rw [herror] at hstep
    cases hstep

/-- A delay and a sink can always be evaluated. -/
theorem evaluate_total {b : BlockId} {blk : Block α} (hf : s.fragment.WellFormed)
    (hblk : s.fragment.blocks[b]? = some blk)
    (hpassive : blk.primitive.isDelay = true ∨ blk.primitive.isSink = true) :
    ∃ s', s.evaluate b = .ok s' := by
  have hblock := blockAt_eq_ok.mpr hblk
  have hsink := hf.sink hblk
  unfold evaluate
  simp only [hblock]
  cases hprimitive : blk.primitive with
  | pre initial =>
      cases hout : blk.output with
      | none => simp [hprimitive, hout, Primitive.isSink] at hsink
      | some q => exact ⟨_, rfl⟩
  | store slot => exact ⟨s, rfl⟩
  | _ => simp [hprimitive, Primitive.isDelay, Primitive.isSink] at hpassive

/-- **An outlook on all outputs** completes the cycle. -/
theorem Outlook.step (h : Outlook s E) (hf : s.fragment.WellFormed)
    (hschedule : s.fragment.Schedules s.order) (hfed : s.fragment.openInput? = none)
    (hcomplete : ∀ {b : BlockId} {blk : Block α} {q : PortId}, s.fragment.blocks[b]? = some blk →
      blk.output = some q → ∃ v, E q v) :
    ∃ s', Simulator.step s = .ok () s' ∧ ∀ {q : PortId} {v : Value α}, E q v →
      s'.value? q = some v := by
  rcases step_cases hf hschedule hfed with ⟨s₁, s₂, hprogress, hconcluding, hstep⟩ |
    ⟨done, b, rest, e, s', hsplit, hprogress, herror, -⟩
  · exact ⟨tick s₂, hstep, fun hq => h.concluded hf hschedule hprogress hconcluding hq⟩
  · exfalso
    have hb : b < s.fragment.blocks.length :=
      (hschedule.complete b).mp (by rw [hsplit]; simp)
    obtain ⟨blk, hblk⟩ : ∃ blk, s.fragment.blocks[b]? = some blk :=
      ⟨_, List.getElem?_eq_getElem hb⟩
    by_cases hpassive : blk.primitive.isDelay = true ∨ blk.primitive.isSink = true
    · rw [← hprogress.fragment] at hf hblk
      obtain ⟨s'', hs''⟩ := evaluate_total hf hblk hpassive
      rw [herror] at hs''
      cases hs''
    · rw [not_or, Bool.not_eq_true, Bool.not_eq_true] at hpassive
      obtain ⟨hnodelay, hnosink⟩ := hpassive
      obtain ⟨q, hout⟩ : ∃ q, blk.output = some q := by
        have hsink := hf.sink hblk
        cases hout : blk.output with
        | none => simp [hnosink, hout] at hsink
        | some q => exact ⟨q, rfl⟩
      obtain ⟨v, hq⟩ := hcomplete hblk hout
      obtain ⟨kind', hport⟩ := hf.output hblk hout
      cases h _ _ hq with
      | delay hproduces _ =>
          rw [hproduces.port] at hport
          cases hport
          rw [hproduces.block] at hblk
          cases hblk
          rw [hproduces.primitive] at hnodelay
          cases hnodelay
      | @reaction _ _ _ _ _ args _ hproduces hdelay hargs hreact =>
          rw [hproduces.port] at hport
          cases hport
          rw [hproduces.block] at hblk
          cases hblk
          have hcarries : Carries s.fragment s'.value? blk.inputs args := by
            refine carries_of_expected hproduces.fed hargs ?_
            intro input source w hinput hsource hw
            obtain ⟨port, hport⟩ := source_port hf hsource
            exact h.settled hf hschedule hsplit hprogress hw hport
              (hschedule.fed hsplit hproduces.block hnodelay hinput hsource hport)
          have hfresh : b ∉ done := Fragment.not_mem_before hschedule.nodup hsplit
          have hkind : s.fragment.kindOf q = .ok _ :=
            Fragment.kindOf_eq_ok.mpr ⟨_, hproduces.port, rfl⟩
          have hblock := hproduces.block
          rw [← hprogress.fragment] at hblock hcarries hkind
          have hevaluate := evaluate_reaction hblock hnodelay hnosink hcarries hout hkind
          rw [hprogress.around, hprogress.untouched hfresh, hproduces.primitive, hreact, herror]
            at hevaluate
          cases hevaluate

/-! ### Forecasts -/

/-- The value `E` expects at a port is what the block of the port makes of
the values `E` expects at its sources, and `E` says something about every
block. -/
structure Forecast (s : Simulator α) (E : PortId → Value α → Prop) : Prop where
  made : ∀ {q : PortId} {v : Value α}, E q v → ∃ primitive sources kind b blk args m,
    s.fragment.Produces q primitive sources kind b blk ∧ primitive.isDelay = false ∧
    List.Forall₂ E sources args ∧
    primitive.react s.around kind (s.memories.get? b) args = .ok (v, m)
  complete : ∀ {b : BlockId} {blk : Block α}, s.fragment.blocks[b]? = some blk →
    ∃ q v, blk.output = some q ∧ E q v

theorem Forecast.outlook (h : Forecast s E) : Outlook s E := by
  intro q v hq
  obtain ⟨primitive, sources, kind, b, blk, args, m, hproduces, hdelay, hargs, hreact⟩ :=
    h.made hq
  exact .reaction hproduces hdelay hargs hreact

/-- **A forecast comes true.**  The cycle is completed, and every port carries
what was expected. -/
theorem Forecast.step (h : Forecast s E) (hf : s.fragment.WellFormed)
    (hschedule : s.fragment.Schedules s.order) (hfed : s.fragment.openInput? = none) :
    ∃ s', Simulator.step s = .ok () s' ∧ ∀ {q : PortId} {v : Value α}, E q v →
      s'.value? q = some v := by
  refine h.outlook.step hf hschedule hfed ?_
  intro b blk q hblk hq
  obtain ⟨q', v, hout, hv⟩ := h.complete hblk
  rw [hq] at hout
  cases hout
  exact ⟨v, hv⟩

end SignalNet.Simulator
