import SignalNet.Proofs.Net.Calls
import SignalNet.Proofs.Net.Slots

/-!
# Dataflow equations

A network denotes a system of equations, one for each block and each cycle.
This module says that a run solves the system, whatever the shape of the
network: chains of delays, loops through delays, and slots that carry values
from sinks back to sources.

* The equations hold for `Fragment.Reachable` fragments, which calls lead to.
* `Simulator.Stored` is what a cycle makes of the slots that at most one sink
  fills.
* `Simulator.Solves` is the system of equations for one cycle, and
  `Simulator.drive_solves` says that it holds in every cycle of every run.
-/

namespace SignalNet

open Computing

namespace Simulator

variable {α : Type}

/-! ### Slots at the end of a cycle -/

/-- The slots in the second half of a cycle that began as `s`, with some
blocks visited: those that no block visited writes are as they were, and one
that a single block visited writes keeps what that block is fed. -/
structure Stored (s : Simulator α) (carried : PortId → Option (Value α)) (done : List BlockId)
    (s' : Simulator α) : Prop where
  fragment : s'.fragment = s.fragment
  values : s'.value? = carried
  kept : ∀ {slot : Nat}, (∀ b ∈ done, ¬ s.fragment.Writes b slot) →
    s'.slot? slot = s.slot? slot
  filled : ∀ {b : BlockId} {blk : Block α} {slot : Nat}, b ∈ done →
    s.fragment.blocks[b]? = some blk → blk.primitive = .store slot →
    (∀ c ∈ done, s.fragment.Writes c slot → c = b) →
    ∃ v, Carries s.fragment carried blk.inputs [v] ∧ s'.slot? slot = some v

variable [Scalar α]

/-- What a completed cycle makes of the slots. -/
theorem step_stored {s s' : Simulator α} (hf : s.fragment.WellFormed)
    (hschedule : s.fragment.Schedules s.order) {u : Unit} (h : step s = .ok u s') :
    Stored s s'.value? s.order s' := by
  have hfills := step_lastFill hf hschedule h
  refine ⟨(step_eq_ok hf hschedule h).fragment, rfl, ?_, ?_⟩
  · intro slot hnone
    cases hfills slot with
    | before _ hkept => exact hkept
    | filled hlast _ _ _ =>
        have hmem := List.mem_of_getLast? hlast
        obtain ⟨hdone, hstores⟩ := List.mem_filter.mp hmem
        exact absurd (Fragment.storesTo_iff.mp hstores) (hnone _ hdone)
  · intro b blk slot hb hblk hprimitive honly
    have hwrites : s.fragment.Writes b slot := ⟨blk, hblk, hprimitive⟩
    cases hfills slot with
    | before hnone _ =>
        have hmem := List.mem_filter.mpr ⟨hb, Fragment.storesTo_iff.mpr hwrites⟩
        rw [hnone] at hmem
        cases hmem
    | filled hlast hblk' hv hkept =>
        -- The last block that fills the slot is the only one.
        obtain ⟨hdone, hstores⟩ := List.mem_filter.mp (List.mem_of_getLast? hlast)
        obtain rfl := honly _ hdone (Fragment.storesTo_iff.mp hstores)
        rw [hblk] at hblk'
        cases hblk'
        exact ⟨_, hv, hkept⟩

/-! ### The last cycle of a run -/

omit [Scalar α] in
theorem feed_fragment (s : Simulator α) (x : Stimulus α) : (s.feed x).fragment = s.fragment := by
  rw [feed_eq]

omit [Scalar α] in
theorem feed_order (s : Simulator α) (x : Stimulus α) : (s.feed x).order = s.order := by
  rw [feed_eq]

omit [Scalar α] in
theorem feed_memories (s : Simulator α) (x : Stimulus α) : (s.feed x).memories = s.memories := by
  rw [feed_eq]

omit [Scalar α] in
theorem feed_period (s : Simulator α) (x : Stimulus α) :
    (s.feed x).around.period = s.around.period := by
  rw [feed_eq]
  rfl

variable {f : Fragment α} {period : α} {s₀ s s' : Simulator α} {x : Nat → Stimulus α} {n : Nat}

/-- Neither stimuli nor cycles change the network, its schedule or the
period. -/
theorem drive_keeps (hf : f.WellFormed) (hstart : start f period = .ok s₀)
    (hdrive : drive x n s₀ = .ok s) :
    s.fragment = f ∧ f.Schedules s.order ∧ s.around.period = period := by
  obtain ⟨horder, -, hs₀⟩ := start_eq_ok hstart
  refine drive_induct
    (I := fun _ s => s.fragment = f ∧ f.Schedules s.order ∧ s.around.period = period) ?_ ?_ hdrive
  · have hschedule := Fragment.schedules_of_evaluationOrder hf horder
    rw [hs₀]
    exact ⟨rfl, hschedule, rfl⟩
  · rintro n s s' ⟨rfl, hschedule, rfl⟩ hstep
    have hcycle := step_eq_ok (by rw [feed_fragment]; exact hf)
      (by rw [feed_fragment, feed_order]; exact hschedule) hstep
    refine ⟨hcycle.fragment.trans (feed_fragment s _), ?_, hcycle.period.trans (feed_period s _)⟩
    rw [hcycle.order, feed_order]
    exact hschedule

/-- **The last cycle of a run**, as a cycle of the network that was started. -/
theorem drive_last (hf : f.WellFormed) (hstart : start f period = .ok s₀)
    (hdrive : drive x (n + 1) s₀ = .ok s') :
    ∃ s, drive x n s₀ = .ok s ∧ (s.feed (x n)).fragment = f ∧ f.Schedules (s.feed (x n)).order ∧
      (s.feed (x n)).around.period = period ∧ Cycle (s.feed (x n)) s' ∧
      Stored (s.feed (x n)) s'.value? (s.feed (x n)).order s' := by
  obtain ⟨s, hbefore, hlast⟩ := drive_succ_eq_ok.mp hdrive
  obtain ⟨rfl, hschedule, rfl⟩ := drive_keeps hf hstart hbefore
  rw [← feed_order s (x n)] at hschedule
  have hschedule' : (s.feed (x n)).fragment.Schedules (s.feed (x n)).order := by
    rw [feed_fragment]
    exact hschedule
  have hf' : (s.feed (x n)).fragment.WellFormed := by
    rw [feed_fragment]
    exact hf
  exact ⟨s, hbefore, feed_fragment s _, hschedule, feed_period s _, step_eq_ok hf' hschedule' hlast,
    step_stored hf' hschedule' hlast⟩

/-! ### The equations of a cycle -/

/-- The equations of cycle `n` of the fragment `f`.  Its state was `s` after
the cycle before, is `fed` once the stimuli of this cycle are set, and `s'`
when the cycle is completed. -/
structure Solves (f : Fragment α) (n : Nat) (s fed s' : Simulator α) : Prop where
  /-- No block remembers anything before the first cycle. -/
  fresh : n = 0 → ∀ b, s.memories.get? b = none
  /-- A block that is neither delay nor sink reacts to what the producers of
  its inputs carry after this cycle and to its own memory from before. -/
  reaction : ∀ {b : BlockId} {blk : Block α}, f.blocks[b]? = some blk →
    blk.primitive.isDelay = false → blk.primitive.isSink = false →
    ∃ q kind args v m, blk.output = some q ∧ f.kindOf q = .ok kind ∧
      Carries f s'.value? blk.inputs args ∧
      blk.primitive.react fed.around kind (s.memories.get? b) args = .ok (v, m) ∧
      s'.value? q = some v ∧ s'.memories.get? b = m.or (s.memories.get? b)
  /-- A delay carries what its producer carried one cycle before. -/
  delay : ∀ {b : BlockId} {blk : Block α} {initial : Value α}, f.blocks[b]? = some blk →
    blk.primitive = .pre initial →
    ∃ q input source v, blk.output = some q ∧ blk.inputs = [input] ∧
      f.producer? input = some source ∧ s'.value? q = some v ∧
      if n = 0 then v = initial else s.value? source = some v
  /-- A block that loads a slot carries what the slot kept before the cycle. -/
  load : ∀ {b : BlockId} {blk : Block α} {slot : Nat}, f.blocks[b]? = some blk →
    blk.primitive = .load slot →
    ∃ q kind, blk.output = some q ∧ f.kindOf q = .ok kind ∧
      s'.value? q = some ((fed.slot? slot).getD (.zero kind))
  /-- A slot that no block writes is left alone. -/
  kept : ∀ {slot : Nat}, (∀ b, ¬ f.Writes b slot) → s'.slot? slot = fed.slot? slot
  /-- A slot that one block writes keeps what that block is fed. -/
  filled : ∀ {b : BlockId} {blk : Block α} {slot : Nat}, f.blocks[b]? = some blk →
    blk.primitive = .store slot → (∀ c, f.Writes c slot → c = b) →
    ∃ input source v, blk.inputs = [input] ∧ f.producer? input = some source ∧
      s'.value? source = some v ∧ s'.slot? slot = some v

omit [Scalar α] in
/-- A single input and the value it carries. -/
theorem Carries.singleton {f : Fragment α} {values : PortId → Option (Value α)}
    {inputs : List PortId} {v : Value α} (h : Carries f values inputs [v]) :
    ∃ input source, inputs = [input] ∧ f.producer? input = some source ∧
      values source = some v := by
  obtain ⟨input, rfl, source, hsource, hvalue⟩ := forall₂_singleton_right h
  exact ⟨input, source, rfl, hsource, hvalue⟩

section Blocks

variable {b : BlockId} {blk : Block α}

/-- A block that is neither delay nor sink in a cycle. -/
theorem Cycle.reaction (h : Cycle s s') (hblk : s.fragment.blocks[b]? = some blk)
    (hdelay : blk.primitive.isDelay = false) (hsink : blk.primitive.isSink = false) :
    ∃ q kind args v m, blk.output = some q ∧ s.fragment.kindOf q = .ok kind ∧
      Carries s.fragment s'.value? blk.inputs args ∧
      blk.primitive.react s.around kind (s.memories.get? b) args = .ok (v, m) ∧
      s'.value? q = some v ∧ s'.memories.get? b = m.or (s.memories.get? b) := by
  cases h.blocks hblk with
  | delay hprimitive => simp [hprimitive, Primitive.isDelay] at hdelay
  | sink hprimitive => simp [hprimitive, Primitive.isSink] at hsink
  | reaction _ _ hargs hout hkind hreact hvalue hmemory =>
      exact ⟨_, _, _, _, _, hout, hkind, hargs, hreact, hvalue, hmemory⟩

/-- A delay in a cycle: it puts out what it remembers, and remembers what it is
fed. -/
theorem Cycle.delay (h : Cycle s s') (hblk : s.fragment.blocks[b]? = some blk)
    {initial : Value α} (hprimitive : blk.primitive = .pre initial) :
    ∃ q, blk.output = some q ∧ s'.value? q = some (s.delayed b initial) ∧
      Carries s.fragment s'.value? blk.inputs [s'.delayed b initial] := by
  cases h.blocks hblk with
  | delay hprimitive' hout hvalue hargs hmemory =>
      rw [hprimitive] at hprimitive'
      cases hprimitive'
      refine ⟨_, hout, hvalue, ?_⟩
      rw [delayed, hmemory]
      exact hargs
  | sink hprimitive' =>
      rw [hprimitive] at hprimitive'
      cases hprimitive'
  | reaction hdelay => simp [hprimitive, Primitive.isDelay] at hdelay

/-- A block that loads a slot in a cycle. -/
theorem Cycle.load (h : Cycle s s') (hf : s.fragment.WellFormed)
    (hblk : s.fragment.blocks[b]? = some blk) {slot : Nat}
    (hprimitive : blk.primitive = .load slot) :
    ∃ q kind, blk.output = some q ∧ s.fragment.kindOf q = .ok kind ∧
      s'.value? q = some ((s.slot? slot).getD (.zero kind)) := by
  obtain ⟨q, kind, args, v, m, hout, hkind, hargs, hreact, hvalue, -⟩ :=
    h.reaction hblk (by rw [hprimitive]; rfl) (by rw [hprimitive]; rfl)
  have hinputs : blk.inputs = [] :=
    List.length_eq_zero_iff.mp (hf.arity hblk 0 (by rw [hprimitive]; rfl))
  rw [hinputs] at hargs
  cases hargs
  rw [hprimitive] at hreact
  cases hreact
  exact ⟨q, kind, hout, hkind, hvalue⟩

/-- A delay remembers what it was fed in the last cycle, and nothing before
the first. -/
theorem drive_delay (hf : f.WellFormed) (hstart : start f period = .ok s₀)
    (hdrive : drive x n s₀ = .ok s) {initial : Value α}
    (hblk : f.blocks[b]? = some blk) (hprimitive : blk.primitive = .pre initial) :
    n = 0 ∧ s.delayed b initial = initial ∨
      0 < n ∧ Carries f s.value? blk.inputs [s.delayed b initial] := by
  cases n with
  | zero =>
      obtain ⟨-, -, hs₀⟩ := start_eq_ok hstart
      cases hdrive
      refine Or.inl ⟨rfl, ?_⟩
      rw [hs₀]
      rfl
  | succ n =>
      obtain ⟨before, -, rfl, -, -, hcycle, -⟩ := drive_last hf hstart hdrive
      obtain ⟨_, -, -, hargs⟩ := hcycle.delay hblk hprimitive
      exact Or.inr ⟨Nat.succ_pos n, hargs⟩

end Blocks

/-- **A run solves the dataflow equations.**  Let a fragment made by calls be
started and driven by any stimuli.  Then every completed cycle solves the
equations of the fragment. -/
theorem drive_solves {f : Fragment α} (hf : f.Reachable) {period : α} {s₀ : Simulator α}
    (hstart : start f period = .ok s₀) (x : Nat → Stimulus α) {n : Nat} {s' : Simulator α}
    (hdrive : drive x (n + 1) s₀ = .ok s') :
    ∃ s, drive x n s₀ = .ok s ∧ Solves f n s (s.feed (x n)) s' := by
  have hwell := hf.wellFormed
  obtain ⟨s, hbefore, rfl, hschedule, -, hcycle, hstored⟩ := drive_last hwell hstart hdrive
  refine ⟨s, hbefore, ?_, ?_, ?_, fun hblk => hcycle.load hwell hblk, ?_, ?_⟩
  · rintro rfl b
    obtain ⟨-, -, hs₀⟩ := start_eq_ok hstart
    cases hbefore
    rw [hs₀]
    rfl
  · intro b blk hblk hdelay hsink
    have hreaction := hcycle.reaction hblk hdelay hsink
    rwa [feed_memories] at hreaction
  · intro b blk initial hblk hprimitive
    obtain ⟨q, hout, hvalue, hargs⟩ := hcycle.delay hblk hprimitive
    obtain ⟨input, source, hinputs, hsource, -⟩ := hargs.singleton
    have hsame : (s.feed (x n)).delayed b initial = s.delayed b initial := by
      rw [delayed, delayed, feed_memories]
    refine ⟨q, input, source, _, hout, hinputs, hsource, hvalue.trans (by rw [hsame]), ?_⟩
    rcases drive_delay hwell hstart hbefore hblk hprimitive with ⟨hn, hinitial⟩ | ⟨hn, hcarried⟩
    · rw [if_pos hn]
      exact hinitial
    · obtain ⟨input', source', hinputs', hsource', hvalue'⟩ := hcarried.singleton
      rw [hinputs] at hinputs'
      cases hinputs'
      rw [hsource] at hsource'
      cases hsource'
      rw [if_neg (Nat.pos_iff_ne_zero.mp hn)]
      exact hvalue'
  · intro slot hnone
    exact hstored.kept fun b _ => hnone b
  · intro b blk slot hblk hprimitive honly
    have hb : b ∈ (s.feed (x n)).order :=
      (hschedule.complete b).mpr (List.getElem?_eq_some_iff.mp hblk).1
    obtain ⟨v, hargs, hslot⟩ := hstored.filled hb hblk hprimitive fun c _ hc => honly c hc
    obtain ⟨input, source, hinputs, hsource, hvalue⟩ := hargs.singleton
    exact ⟨input, source, v, hinputs, hsource, hvalue, hslot⟩

/-- A counter that lives in a slot, and two delays in a loop. -/
def Sample.counter : Fragment Float :=
  Fragment.performAll [.addSource (.load 0) .integer, .addSource (.constant (.integer 1)) .integer,
    .addWired (.binary .add) [0, 1] .integer, .addBlock (.store 0) [.integer] none,
    .connect 4 5, .addBlock (.pre (.integer 7)) [.integer] (some .integer),
    .addWired (.pre (.integer 8)) [7] .integer, .connect 9 6] .empty

/-- The counter is set to ten before its second cycle. -/
def Sample.reset (n : Nat) : Stimulus Float :=
  if n = 1 then { slots := [(0, .integer 10)] } else {}

theorem counter_solves : ∃ s₀ s s', start Sample.counter 1 = .ok s₀ ∧
    drive Sample.reset 1 s₀ = .ok s ∧ drive Sample.reset 2 s₀ = .ok s' ∧
    Solves Sample.counter 1 s (s.feed (Sample.reset 1)) s' ∧ s'.slot? 0 = some (.integer 11) := by
  have hruns : (match start Sample.counter 1 with
      | .error _ => none
      | .ok s₀ => match drive Sample.reset 2 s₀ with
        | .error _ => none
        | .ok s' => s'.slot? 0) = some (.integer 11) := by decide +kernel
  cases hstart : start Sample.counter 1 with
  | error e => simp [hstart] at hruns
  | ok s₀ =>
      cases hdrive : drive Sample.reset 2 s₀ with
      | error e => simp [hstart, hdrive] at hruns
      | ok s' =>
          simp only [hstart, hdrive] at hruns
          obtain ⟨s, hbefore, hsolves⟩ := drive_solves ⟨_, rfl⟩ hstart Sample.reset hdrive
          exact ⟨s₀, s, s', rfl, hbefore, hdrive, hsolves, hruns⟩

end Simulator

end SignalNet
