import SignalNet.Proofs.Net.Calls
import SignalNet.Proofs.Net.Run

/-!
# Networks never run short of values

Between two cycles inputs, sensors and slots are set from outside, and a cycle
that has failed does not end a simulation: the next one starts from what it has
left.  None of these calls touches the fragment or the evaluation order, so a
network that has been started stays ready for the next cycle
(`Simulator.Ready.performAll`).

In a network that is ready a block is evaluated after its sources, a delay puts
out what it remembers, and the cycle is concluded when all outputs carry values.
So the values that a block needs are there whenever it acts, and a cycle can
only fail at a block that does not react to its arguments
(`Simulator.Ready.step`, `Simulator.steps_never_starve`).
-/

namespace SignalNet

open Computing

variable {α : Type} [Scalar α]

namespace Simulator

/-- The calls on a running network. -/
inductive Call (α : Type)
  | setInput (name : String) (v : Value α)
  | setSensor (name : String) (v : Value α)
  | setSlot (slot : Nat) (v : Value α)
  | step

/-- Make a call. -/
def Call.run : Call α → Simulating α Unit
  | setInput name v => modify fun s => s.setInput name v
  | setSensor name v => modify fun s => s.setSensor name v
  | setSlot slot v => modify fun s => s.setSlot slot v
  | step => Simulator.step

/-- The network after a sequence of calls.  Cycles that fail are not undone. -/
def performAll (calls : List (Call α)) (s : Simulator α) : Simulator α :=
  calls.foldl (fun s call => finalState (call.run s)) s

variable {s : Simulator α}

/-- **One cycle of a network that is ready.**  Fragment and order are as they
were, and the cycle is completed, or it stops at a block whose inputs all carry
values, because its primitive does not react to them. -/
theorem Ready.step (h : Ready s) :
    (∃ s', Simulator.step s = .ok () s' ∧ Cycle s s') ∨
      ∃ b blk args fault s', Simulator.step s = .error (refusal b blk args fault) s' ∧
        Refuses s' b blk args fault ∧ s'.fragment = s.fragment ∧ s'.order = s.order := by
  rcases step_cases h.wellFormed h.schedule h.fed with ⟨s₁, s₂, -, -, hstep⟩ |
    ⟨done, b, rest, e, s', hsplit, hprogress, herror, hstep⟩
  · exact .inl ⟨_, hstep, step_eq_ok h.wellFormed h.schedule hstep⟩
  · have hb : b < s.fragment.blocks.length :=
      (h.schedule.complete b).mp (by rw [hsplit]; simp)
    obtain ⟨blk, hblk⟩ : ∃ blk, s.fragment.blocks[b]? = some blk :=
      ⟨_, List.getElem?_eq_getElem hb⟩
    -- The sources of the block come before it, unless it is a delay.
    have hcarries : blk.primitive.isDelay = false →
        ∃ args, Carries s.fragment s'.value? blk.inputs args := fun hdelay =>
      hprogress.carries h.wellFormed h.fed hblk fun hinput hsource _ hport =>
        h.schedule.fed hsplit hblk hdelay hinput hsource hport
    have hready : Ready s' := h.congr hprogress.fragment hprogress.order
    rw [← hprogress.fragment] at hblk hcarries
    obtain ⟨args, fault, hrefuses, rfl⟩ :=
      evaluate_refuses hready.wellFormed hblk hcarries herror
    exact .inr ⟨b, blk, args, fault, s', hstep, hrefuses, hprogress.fragment, hprogress.order⟩

/-- Every call leaves the fragment and the order alone, whether it fails or
not. -/
theorem Ready.call (h : Ready s) (call : Call α) :
    (finalState (call.run s)).fragment = s.fragment ∧
      (finalState (call.run s)).order = s.order := by
  cases call with
  | setInput name v => exact ⟨rfl, rfl⟩
  | setSensor name v => exact ⟨rfl, rfl⟩
  | setSlot slot v => exact ⟨rfl, rfl⟩
  | step =>
      rw [Call.run]
      rcases h.step with ⟨s', hstep, hcycle⟩ | ⟨_, _, _, _, s', hstep, -, hfragment, horder⟩
      · rw [hstep]
        exact ⟨hcycle.fragment, hcycle.order⟩
      · rw [hstep]
        exact ⟨hfragment, horder⟩

/-- So do all calls together. -/
theorem Ready.frame (h : Ready s) (calls : List (Call α)) :
    (Simulator.performAll calls s).fragment = s.fragment ∧
      (Simulator.performAll calls s).order = s.order := by
  induction calls generalizing s with
  | nil => exact ⟨rfl, rfl⟩
  | cons call rest ih =>
      obtain ⟨hfragment, horder⟩ := h.call call
      obtain ⟨hfragment', horder'⟩ := ih (h.congr hfragment horder)
      exact ⟨hfragment'.trans hfragment, horder'.trans horder⟩

/-- A network stays ready under all calls. -/
theorem Ready.performAll (h : Ready s) (calls : List (Call α)) :
    Ready (Simulator.performAll calls s) :=
  h.congr (h.frame calls).1 (h.frame calls).2

/-- **A completed cycle after any calls**, as a cycle of the network that was
started. -/
theorem performAll_cycle {f : Fragment α} (hf : f.WellFormed) {period : α} {s₀ : Simulator α}
    (hstart : start f period = .ok s₀) {calls : List (Call α)}
    (hstep : Simulator.step (performAll calls s₀) = .ok () s) :
    (performAll calls s₀).fragment = f ∧ Cycle (performAll calls s₀) s := by
  obtain ⟨-, -, hs₀⟩ := start_eq_ok hstart
  have hstarted : s₀.fragment = f := by rw [hs₀]
  have hready := start_ready hf hstart
  have hready' := hready.performAll calls
  exact ⟨(hready.frame calls).1.trans hstarted,
    step_eq_ok hready'.wellFormed hready'.schedule hstep⟩

/-- **No block is evaluated without its inputs.**  In a network that has been
started, and whatever calls have been made since, a cycle is completed, or it
fails at a block whose inputs all carry values and whose primitive does not react
to them.  No cycle fails for an input without a value or a block without an
output. -/
theorem steps_never_starve {f : Fragment α} (hf : f.Reachable) {period : α}
    {s₀ : Simulator α} (hstart : start f period = .ok s₀) (calls : List (Call α)) :
    ((∃ s', Simulator.step (performAll calls s₀) = .ok () s' ∧
        Cycle (performAll calls s₀) s') ∨
      ∃ b blk args fault s',
        Simulator.step (performAll calls s₀) = .error (refusal b blk args fault) s' ∧
          Refuses s' b blk args fault) ∧
    ∀ e s', Simulator.step (performAll calls s₀) = .error e s' →
      (∀ input b, e ≠ .noValue input b) ∧ (∀ b, e ≠ .noOutput b) ∧
        (∀ cause, e ≠ .net cause) ∧ e ≠ .period := by
  have hready : Ready (performAll calls s₀) := (start_ready hf.wellFormed hstart).performAll calls
  rcases hready.step with ⟨s', hstep, hcycle⟩ | ⟨b, blk, args, fault, s', hstep, hrefuses, -, -⟩
  · refine ⟨.inl ⟨s', hstep, hcycle⟩, fun e s'' herror => ?_⟩
    rw [hstep] at herror
    cases herror
  · refine ⟨.inr ⟨b, blk, args, fault, s', hstep, hrefuses⟩, fun e s'' herror => ?_⟩
    rw [hstep] at herror
    cases herror
    cases fault <;> simp [refusal]

/-- A number that passes through a delay and is divided by another one. -/
def Sample.quotient : Fragment Float :=
  Fragment.performAll [.addSource (.input "x") .integer, .addSource (.input "y") .integer,
    .addWired (.pre (.integer 6)) [0] .integer, .addWired (.binary .div) [3, 1] .integer] .empty

/-- Before its divisor is set, the division fails.  The cycle after that is
completed. -/
theorem quotient_never_starves :
    ∃ s₀ s₁ s₂, start Sample.quotient 1 = .ok s₀ ∧
      Simulator.step s₀ = .error (.rejected "div" 3 [.integer 6, .integer 0]) s₁ ∧
      (∃ b blk args fault, Refuses s₁ b blk args fault) ∧
      Simulator.step (performAll [.step, .setInput "y" (.integer 2)] s₀) = .ok () s₂ ∧
      Cycle (performAll [.step, .setInput "y" (.integer 2)] s₀) s₂ ∧
      s₂.value? 6 = some (.integer 3) := by
  have hruns : (match start Sample.quotient 1 with
      | .error _ => none
      | .ok s₀ => match Simulator.step s₀,
          Simulator.step (performAll [.step, .setInput "y" (.integer 2)] s₀) with
        | .error e _, .ok _ s₂ => some (e, s₂.value? 6)
        | _, _ => none) =
      some (.rejected "div" 3 [.integer 6, .integer 0], some (.integer 3)) := by decide +kernel
  cases hstart : start Sample.quotient 1 with
  | error e => simp [hstart] at hruns
  | ok s₀ =>
      obtain ⟨hfirst, -⟩ := steps_never_starve ⟨_, rfl⟩ hstart []
      obtain ⟨hsecond, -⟩ := steps_never_starve ⟨_, rfl⟩ hstart
        [.step, .setInput "y" (.integer 2)]
      simp only [hstart] at hruns
      rcases hfirst with ⟨s₁, hstep, -⟩ | ⟨b, blk, args, fault, s₁, hstep, hrefuses⟩
      · have hstep : Simulator.step s₀ = .ok () s₁ := hstep
        simp [hstep] at hruns
      · have hstep : Simulator.step s₀ = .error (refusal b blk args fault) s₁ := hstep
        rcases hsecond with ⟨s₂, hstep', hcycle⟩ | ⟨_, _, _, _, s₂, hstep', -⟩
        · simp only [hstep, hstep', Option.some.injEq, Prod.mk.injEq] at hruns
          exact ⟨s₀, s₁, s₂, rfl, hruns.1 ▸ hstep, ⟨b, blk, args, fault, hrefuses⟩, hstep', hcycle,
            hruns.2⟩
        · simp [hstep, hstep'] at hruns

end Simulator

end SignalNet
