import SignalNet.Proofs.Compile.Meaning
import SignalNet.Proofs.Motion.States
import SignalNet.Proofs.Net.Equations

/-!
# What boolean ports tell

A port tells a verdict if it carries the verdict in every completed cycle of a
run (`Simulator.Tells`).  Constants, negations, conjunctions and disjunctions
do so cycle by cycle.  Latches and timers remember, so for them it goes by
induction over the cycles, with what the block remembers as the invariant
(`Simulator.tells_latch`, `Simulator.tells_timer`).
-/

namespace SignalNet

open Computing

variable {α : Type} [Scalar α]

/-- Booleans are not identified with anything else. -/
theorem Value.eq_boolean {v : Value α} {b : Bool}
    (h : v.canonical = (Value.boolean b : Value α).canonical) : v = .boolean b := by
  cases v <;> simp_all [Value.canonical, Value.map]

/-! ### What blocks carry -/

namespace Simulator

/-- What surrounds the blocks in a cycle of a run. -/
def seen (x : Nat → Stimulus α) (s₀ : Simulator α) (n : Nat) : Surroundings α :=
  match drive x n s₀ with
  | .ok s => (s.feed (x n)).around
  | .error _ => s₀.around

/-- The boolean that a port carries in a cycle of a run. -/
def carriedIn (x : Nat → Stimulus α) (s₀ : Simulator α) (q : PortId) (n : Nat) : Option Bool :=
  match drive x (n + 1) s₀ with
  | .ok s => s.boolean? q
  | .error _ => none

/-- In every completed cycle of a run a port carries a verdict. -/
def Tells (x : Nat → Stimulus α) (s₀ : Simulator α) (q : PortId) (verdict : Nat → Option Bool) :
    Prop :=
  ∀ {n : Nat} {s : Simulator α}, drive x (n + 1) s₀ = .ok s → s.boolean? q = verdict n

section Cycle

variable {s s' : Simulator α} {q : PortId} {kind : Kind} {b : BlockId} {blk : Block α}

omit [Scalar α] in
/-- Ports that carry booleans. -/
theorem map_boolean? {ports : List PortId} {bs : List Bool}
    (h : List.Forall₂ (fun source b => s.value? source = some (.boolean b)) ports bs) :
    ports.map s.boolean? = bs.map some := by
  induction h with
  | nil => rfl
  | cons hb _ ih =>
      rw [List.map_cons, List.map_cons, ih, boolean?, hb]
      rfl

/-- A cycle is completed only if what it negates is a boolean. -/
theorem Cycle.negates (h : Cycle s s') (hf : s.fragment.WellFormed) {source : PortId}
    (hq : s.fragment.Makes q (.unary .not) [source] kind) :
    ∃ b, s'.boolean? source = some b ∧ s'.boolean? q = some !b := by
  obtain ⟨args, v, m, memory, hargs, hreact, hvalue⟩ := h.makes hf hq rfl
  obtain ⟨a, _, ha, hnil, rfl⟩ := List.forall₂_cons_left_iff.mp hargs
  cases hnil
  obtain ⟨heval, -⟩ := operator_eq_ok.mp hreact
  rw [boolean?, boolean?, hvalue, ha]
  cases a with
  | boolean b =>
      cases heval
      exact ⟨b, rfl, rfl⟩
  | _ => cases heval

/-- A negation in a cycle. -/
theorem Cycle.negation (h : Cycle s s') (hf : s.fragment.WellFormed) {source : PortId}
    (hq : s.fragment.Makes q (.unary .not) [source] kind) :
    s'.boolean? q = Verdict.negation (s'.boolean? source) := by
  obtain ⟨b, hsource, hvalue⟩ := h.negates hf hq
  rw [hsource, hvalue]
  rfl

/-- A conjunction in a cycle. -/
theorem Cycle.conjunction (h : Cycle s s') (hf : s.fragment.WellFormed) {ports : List PortId}
    (hq : s.fragment.Makes q .allOf ports kind) :
    s'.boolean? q = Verdict.all (ports.map s'.boolean?) := by
  obtain ⟨bs, hports, hvalue⟩ := h.connective hf hq rfl
  rw [map_boolean? hports, Verdict.all_some, boolean?, hvalue]
  rfl

/-- A disjunction in a cycle. -/
theorem Cycle.disjunction (h : Cycle s s') (hf : s.fragment.WellFormed) {ports : List PortId}
    (hq : s.fragment.Makes q .anyOf ports kind) :
    s'.boolean? q = Verdict.any (ports.map s'.boolean?) := by
  obtain ⟨bs, hports, hvalue⟩ := h.connective hf hq rfl
  rw [map_boolean? hports, Verdict.any_some, boolean?, hvalue]
  rfl

/-- A latch in a cycle: it puts out and remembers whether it is on. -/
theorem Cycle.latch (h : Cycle s s') (hf : s.fragment.WellFormed) {set reset : PortId}
    (hq : s.fragment.Produces q .latch [set, reset] kind b blk) :
    ∃ on off, s'.boolean? set = some on ∧ s'.boolean? reset = some off ∧
      s'.boolean? q = some (latched on off (s.memories.get? b)) ∧
      s'.memories.get? b = some (.latch (latched on off (s.memories.get? b))) := by
  obtain ⟨args, v, m, hargs, hreact, hvalue, hmemory⟩ := h.produces hf hq rfl
  obtain ⟨a, _, ha, hrest, rfl⟩ := List.forall₂_cons_left_iff.mp hargs
  obtain ⟨c, _, hc, hnil, rfl⟩ := List.forall₂_cons_left_iff.mp hrest
  cases hnil
  match a, c, hreact with
  | .boolean on, .boolean off, hreact =>
      cases hreact
      refine ⟨on, off, ?_, ?_, ?_, hmemory⟩
      · rw [boolean?, ha]
        rfl
      · rw [boolean?, hc]
        rfl
      · rw [boolean?, hvalue]
        rfl

/-- A timer in a cycle: it remembers for how long its source has held. -/
theorem Cycle.timer (h : Cycle s s') (hf : s.fragment.WellFormed) {duration : α}
    {source : PortId} (hq : s.fragment.Produces q (.timer duration) [source] kind b blk) :
    ∃ on, s'.boolean? source = some on ∧
      s'.boolean? q =
        some (hasElapsed duration (elapsed s.around.period on (s.memories.get? b))) ∧
      s'.memories.get? b = some (.timer (elapsed s.around.period on (s.memories.get? b))) := by
  obtain ⟨args, v, m, hargs, hreact, hvalue, hmemory⟩ := h.produces hf hq rfl
  obtain ⟨a, _, ha, hnil, rfl⟩ := List.forall₂_cons_left_iff.mp hargs
  cases hnil
  match a, hreact with
  | .boolean on, hreact =>
      cases hreact
      refine ⟨on, ?_, ?_, hmemory⟩
      · rw [boolean?, ha]
        rfl
      · rw [boolean?, hvalue]
        rfl

end Cycle

/-! ### What ports tell in a run -/

section Run

variable {f : Fragment α} {period : α} {s₀ s : Simulator α} {x : Nat → Stimulus α} {n : Nat}
  {q : PortId} {kind : Kind}

/-- The first cycle starts without memories. -/
theorem start_memories (h : start f period = .ok s₀) (b : BlockId) :
    s₀.memories.get? b = none := by
  obtain ⟨-, -, hs₀⟩ := start_eq_ok h
  rw [hs₀]
  rfl

theorem seen_eq (h : drive x n s₀ = .ok s) : seen x s₀ n = (s.feed (x n)).around := by
  rw [seen, h]

theorem carriedIn_eq (h : drive x (n + 1) s₀ = .ok s) : carriedIn x s₀ q n = s.boolean? q := by
  rw [carriedIn, h]

theorem tells_constant (hf : f.WellFormed) (hstart : start f period = .ok s₀) {b : Bool}
    (hq : f.Makes q (.constant (.boolean b)) [] kind) : Tells x s₀ q fun _ => some b := by
  intro n s hdrive
  obtain ⟨before, -, rfl, -, -, hcycle, -⟩ := drive_last hf hstart hdrive
  rw [boolean?, hcycle.constant hf hq]
  rfl

/-- **A latch over the cycles.** -/
theorem tells_latch (hf : f.WellFormed) (hstart : start f period = .ok s₀) {set reset : PortId}
    (hq : f.Makes q .latch [set, reset] kind) {on off : Nat → Option Bool}
    (hset : Tells x s₀ set on) (hreset : Tells x s₀ reset off) :
    Tells x s₀ q (Verdict.latch on off) := by
  obtain ⟨b, blk, hproduces⟩ := hq
  -- The latch remembers what it put out last.
  have hmain : ∀ {n : Nat} {s : Simulator α}, drive x (n + 1) s₀ = .ok s →
      ∃ held, s.boolean? q = some held ∧ s.memories.get? b = some (.latch held) ∧
        Verdict.latch on off n = some held := by
    intro n
    induction n with
    | zero =>
        intro s hdrive
        obtain ⟨before, hbefore, rfl, -, -, hcycle, -⟩ := drive_last hf hstart hdrive
        cases hbefore
        obtain ⟨a, c, ha, hc, hvalue, hmemory⟩ := hcycle.latch hf hproduces
        rw [hset hdrive] at ha
        rw [hreset hdrive] at hc
        rw [feed_memories, start_memories hstart] at hvalue hmemory
        refine ⟨_, hvalue, hmemory, ?_⟩
        simp [Verdict.latch, ha, latched]
    | succ n ih =>
        intro s hdrive
        obtain ⟨before, hbefore, rfl, -, -, hcycle, -⟩ := drive_last hf hstart hdrive
        obtain ⟨held, -, hheld, hlatch⟩ := ih hbefore
        obtain ⟨a, c, ha, hc, hvalue, hmemory⟩ := hcycle.latch hf hproduces
        rw [hset hdrive] at ha
        rw [hreset hdrive] at hc
        rw [feed_memories, hheld] at hvalue hmemory
        refine ⟨_, hvalue, hmemory, ?_⟩
        simp [Verdict.latch, ha, hc, hlatch, latched]
  intro n s hdrive
  obtain ⟨held, hvalue, -, hlatch⟩ := hmain hdrive
  rw [hvalue, hlatch]

/-- **A timer over the cycles.** -/
theorem tells_timer (hf : f.WellFormed) (hstart : start f period = .ok s₀) {duration : α}
    {source : PortId} (hq : f.Makes q (.timer duration) [source] kind) {on : Nat → Option Bool}
    (hsource : Tells x s₀ source on) :
    Tells x s₀ q (Verdict.timer (fun n => (seen x s₀ n).period) duration on) := by
  obtain ⟨b, blk, hproduces⟩ := hq
  have hmain : ∀ {n : Nat} {s : Simulator α}, drive x (n + 1) s₀ = .ok s →
      ∃ time, s.boolean? q = some (hasElapsed duration time) ∧
        s.memories.get? b = some (.timer time) ∧
        Verdict.since (fun n => (seen x s₀ n).period) on n = some time := by
    intro n
    induction n with
    | zero =>
        intro s hdrive
        obtain ⟨before, hbefore, rfl, -, -, hcycle, -⟩ := drive_last hf hstart hdrive
        cases hbefore
        obtain ⟨a, ha, hvalue, hmemory⟩ := hcycle.timer hf hproduces
        rw [hsource hdrive] at ha
        rw [feed_memories, start_memories hstart] at hvalue hmemory
        refine ⟨_, hvalue, hmemory, ?_⟩
        simp [Verdict.since, ha, elapsed]
    | succ n ih =>
        intro s hdrive
        obtain ⟨before, hbefore, rfl, -, -, hcycle, -⟩ := drive_last hf hstart hdrive
        obtain ⟨time, -, htime, hsince⟩ := ih hbefore
        obtain ⟨a, ha, hvalue, hmemory⟩ := hcycle.timer hf hproduces
        rw [hsource hdrive] at ha
        rw [feed_memories, htime] at hvalue hmemory
        refine ⟨_, hvalue, hmemory, ?_⟩
        cases a with
        | false => simp [Verdict.since, ha, elapsed]
        | true => cases time <;> simp [Verdict.since, ha, hsince, elapsed, seen_eq hbefore]
  intro n s hdrive
  obtain ⟨time, hvalue, -, hsince⟩ := hmain hdrive
  rw [hvalue, Verdict.timer, hsince]
  rfl

end Run

end Simulator

end SignalNet
