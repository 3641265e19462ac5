import SignalNet.Proofs.Net.Cycle

/-!
# Runs of a network

A network is driven by a sequence of stimuli: before cycle `n` the inputs,
sensors and slots of stimulus `x n` are set.  `Simulator.drive x n` runs `n`
cycles and stops at the first that fails.

What surrounds the blocks in cycle `n` of a network without sinks depends on
the stimuli alone (`Surroundings.during`), which is what
`Simulator.drive_around` says.
-/

namespace SignalNet

variable {α : Type}

/-- The surroundings after a stimulus. -/
def Surroundings.feed (around : Surroundings α) (x : Stimulus α) : Surroundings α :=
  { around with
    inputs := x.inputs.foldl (fun t (name, v) => t.insert name v) around.inputs
    sensors := x.sensors.foldl (fun t (name, v) => t.insert name v) around.sensors
    slots := x.slots.foldl (fun t (slot, v) => t.insert slot v) around.slots }

/-- The surroundings one cycle later. -/
def Surroundings.next [Add α] (around : Surroundings α) : Surroundings α :=
  { around with time := around.time + around.period }

/-- The surroundings in cycle `n`, if only stimuli change them. -/
def Surroundings.during [Add α] (around : Surroundings α) (x : Nat → Stimulus α) :
    Nat → Surroundings α
  | 0 => around.feed (x 0)
  | n + 1 => (around.during x n).next.feed (x (n + 1))

namespace Simulator

/-- A stimulus changes the surroundings and nothing else. -/
theorem feed_eq (s : Simulator α) (x : Stimulus α) :
    s.feed x = { s with around := s.around.feed x } := by
  have hinputs : ∀ (xs : List (String × Value α)) (s : Simulator α),
      xs.foldl (fun s (name, v) => s.setInput name v) s =
        { s with around := { s.around with
          inputs := xs.foldl (fun t (name, v) => t.insert name v) s.around.inputs } } := by
    intro xs
    induction xs with
    | nil => intro s; rfl
    | cons entry rest ih => intro s; exact ih (s.setInput entry.1 entry.2)
  have hsensors : ∀ (xs : List (String × Value α)) (s : Simulator α),
      xs.foldl (fun s (name, v) => s.setSensor name v) s =
        { s with around := { s.around with
          sensors := xs.foldl (fun t (name, v) => t.insert name v) s.around.sensors } } := by
    intro xs
    induction xs with
    | nil => intro s; rfl
    | cons entry rest ih => intro s; exact ih (s.setSensor entry.1 entry.2)
  have hslots : ∀ (xs : List (Nat × Value α)) (s : Simulator α),
      xs.foldl (fun s (slot, v) => s.setSlot slot v) s =
        { s with around := { s.around with
          slots := xs.foldl (fun t (slot, v) => t.insert slot v) s.around.slots } } := by
    intro xs
    induction xs with
    | nil => intro s; rfl
    | cons entry rest ih => intro s; exact ih (s.setSlot entry.1 entry.2)
  simp only [feed, hinputs, hsensors, hslots]
  rfl

/-- The network is complete, and the order is a schedule. -/
structure Ready (s : Simulator α) : Prop where
  wellFormed : s.fragment.WellFormed
  fed : s.fragment.openInput? = none
  schedule : s.fragment.Schedules s.order

/-- A network is ready as long as neither the fragment nor the order change. -/
theorem Ready.congr {s s' : Simulator α} (h : Ready s) (hfragment : s'.fragment = s.fragment)
    (horder : s'.order = s.order) : Ready s' := by
  refine ⟨?_, ?_, ?_⟩ <;> rw [hfragment]
  · exact h.wellFormed
  · exact h.fed
  · rw [horder]
    exact h.schedule

theorem Ready.feed {s : Simulator α} (h : Ready s) (x : Stimulus α) : Ready (s.feed x) := by
  rw [feed_eq]
  exact ⟨h.wellFormed, h.fed, h.schedule⟩

theorem Cycle.ready [Scalar α] {s s' : Simulator α} (h : Cycle s s') (hs : Ready s) : Ready s' :=
  hs.congr h.fragment h.order

variable [Scalar α]

/-- A network that has been started has a schedule, and nothing has happened
in it yet. -/
theorem start_eq_ok {f : Fragment α} {period : α} {s : Simulator α}
    (h : start f period = .ok s) :
    f.evaluationOrder = .ok s.order ∧ f.openInput? = none ∧
      s = { fragment := f, order := s.order, around := { period, time := 0 } } := by
  unfold start at h
  split at h
  · cases h
  · cases hvalidate : f.validate with
    | error e => simp [hvalidate] at h
    | ok u =>
        cases horder : f.evaluationOrder with
        | error e => simp [hvalidate, horder] at h
        | ok order =>
            simp only [hvalidate, horder, Except.ok.injEq] at h
            subst h
            exact ⟨rfl, (Fragment.validate_eq_ok hvalidate).2, rfl⟩

/-- A network that has been started is ready. -/
theorem start_ready {f : Fragment α} {period : α} {s : Simulator α} (hf : f.WellFormed)
    (h : start f period = .ok s) : Ready s := by
  obtain ⟨horder, hfed, hs⟩ := start_eq_ok h
  rw [hs]
  exact ⟨hf, hfed, Fragment.schedules_of_evaluationOrder hf horder⟩

/-- A valid fragment can be started with any finite positive period. -/
theorem start_total {f : Fragment α} {u : Unit} (h : f.validate = .ok u) {period : α}
    (hfinite : Scalar.isFinite period = true) (hpositive : Scalar.lt 0 period = true) :
    ∃ s, start f period = .ok s := by
  obtain ⟨⟨order, horder⟩, -⟩ := Fragment.validate_eq_ok h
  unfold start
  simp only [hfinite, hpositive, h, horder]
  exact ⟨_, rfl⟩

/-- Run `n` cycles, each after its stimulus. -/
def drive (x : Nat → Stimulus α) : Nat → Simulator α → Except (SimError α) (Simulator α)
  | 0, s => .ok s
  | n + 1, s =>
    match drive x n s with
    | .error e => .error e
    | .ok s =>
      match step (s.feed (x n)) with
      | .ok _ s' => .ok s'
      | .error e _ => .error e

theorem drive_succ_eq_ok {x : Nat → Stimulus α} {n : Nat} {s₀ s' : Simulator α} :
    drive x (n + 1) s₀ = .ok s' ↔
      ∃ s, drive x n s₀ = .ok s ∧ step (s.feed (x n)) = .ok () s' := by
  rw [drive]
  cases hdrive : drive x n s₀ with
  | error e => simp
  | ok s => cases hstep : step (s.feed (x n)) <;> simp [hstep]

/-- What every cycle keeps, a run keeps. -/
theorem drive_induct {x : Nat → Stimulus α} {I : Nat → Simulator α → Prop} {s₀ : Simulator α}
    (hstart : I 0 s₀)
    (hstep : ∀ {n : Nat} {s s' : Simulator α}, I n s → step (s.feed (x n)) = .ok () s' →
      I (n + 1) s')
    {n : Nat} {s : Simulator α} (h : drive x n s₀ = .ok s) : I n s := by
  induction n generalizing s with
  | zero =>
      cases h
      exact hstart
  | succ n ih =>
      obtain ⟨before, hbefore, hlast⟩ := drive_succ_eq_ok.mp h
      exact hstep (ih hbefore) hlast

/-- Fragment and order stay the same in a run. -/
theorem drive_frame {x : Nat → Stimulus α} {s₀ : Simulator α}
    (hf : s₀.fragment.WellFormed) (hschedule : s₀.fragment.Schedules s₀.order) {n : Nat}
    {s : Simulator α} (h : drive x n s₀ = .ok s) :
    s.fragment = s₀.fragment ∧ s.order = s₀.order := by
  refine drive_induct (I := fun _ s => s.fragment = s₀.fragment ∧ s.order = s₀.order)
    ⟨rfl, rfl⟩ ?_ h
  rintro n s s' ⟨hfragment, horder⟩ hstep
  rw [feed_eq] at hstep
  have hcycle := step_eq_ok (by rw [hfragment]; exact hf)
    (by rw [hfragment, horder]; exact hschedule) hstep
  exact ⟨hcycle.fragment.trans hfragment, hcycle.order.trans horder⟩

/-- A cycle without sinks changes the time only. -/
theorem Cycle.around {s s' : Simulator α} (h : Cycle s s')
    (hsinks : ∀ {b : BlockId} {blk : Block α}, s.fragment.blocks[b]? = some blk →
      blk.primitive.isSink = false) : s'.around = s.around.next := by
  have hslots := h.slots hsinks
  have hperiod := h.period
  have htime := h.time
  have hinputs := h.inputs
  have hsensors := h.sensors
  cases hs : s'.around
  cases hs₀ : s.around
  simp_all [Surroundings.next]

/-- In a run without sinks the surroundings are those that the stimuli
make. -/
theorem drive_around {x : Nat → Stimulus α} {s₀ : Simulator α}
    (hf : s₀.fragment.WellFormed) (hschedule : s₀.fragment.Schedules s₀.order)
    (hsinks : ∀ {b : BlockId} {blk : Block α}, s₀.fragment.blocks[b]? = some blk →
      blk.primitive.isSink = false)
    {n : Nat} {s : Simulator α} (h : drive x n s₀ = .ok s) :
    (s.feed (x n)).around = s₀.around.during x n := by
  induction n generalizing s with
  | zero =>
      cases h
      rw [feed_eq]
      rfl
  | succ n ih =>
      obtain ⟨before, hbefore, hlast⟩ := drive_succ_eq_ok.mp h
      obtain ⟨hfragment, horder⟩ := drive_frame hf hschedule hbefore
      have hfed : (before.feed (x n)).fragment = s₀.fragment := by
        rw [feed_eq]
        exact hfragment
      have hfedOrder : (before.feed (x n)).order = s₀.order := by
        rw [feed_eq]
        exact horder
      have hcycle := step_eq_ok (by rw [hfed]; exact hf)
        (by rw [hfed, hfedOrder]; exact hschedule) hlast
      have haround : s.around = (before.feed (x n)).around.next :=
        hcycle.around (by rw [hfed]; exact hsinks)
      rw [feed_eq]
      show s.around.feed (x (n + 1)) = _
      rw [haround, ih hbefore]
      rfl

end Simulator

end SignalNet
