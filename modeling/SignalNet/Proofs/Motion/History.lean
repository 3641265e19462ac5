import Mathlib.Logic.Function.Iterate
import SignalNet.Proofs.Motion.Slowing
import SignalNet.Proofs.Motion.Verdicts
import SignalNet.Proofs.Net.Calls

/-!
# What blocks remember of a run

Edge detectors, latches and timers keep a boolean or a time from one cycle to
the next.  Seen from outside they look back at the whole run, and this module
says how: `Primitive.Recalls` gives the output of cycle `n` from the inputs of
all cycles up to `n`, without reference to memories.

* An edge detector compares with the cycle before.
* A latch is on if it has been set and not been reset since
  (`Verdict.latch_eq_some`).
* A timer measures the stretch of cycles in which its input has held without a
  break (`Verdict.since_eq_some`).

`Simulator.run_recalls` is the result for every such block of a complete
fragment, whatever other blocks there are.
-/

namespace SignalNet

open Computing

/-! ### Histories -/

/-- The `m` cycles in front of cycle `n` are all those without a break in which
`i` held. -/
def Streak (i : Nat → Bool) (n m : Nat) : Prop :=
  ∃ first, first + m = n ∧ (∀ k, first ≤ k → k < n → i k = true) ∧
    ∀ k, k + 1 = first → i k = false

theorem streak_zero (i : Nat → Bool) : Streak i 0 0 :=
  ⟨0, rfl, by simp, by simp⟩

/-- A cycle in which `i` holds makes the stretch longer. -/
theorem Streak.extend {i : Nat → Bool} {n m : Nat} (h : Streak i n m) (hn : i n = true) :
    Streak i (n + 1) (m + 1) := by
  obtain ⟨first, rfl, hheld, hbroken⟩ := h
  refine ⟨first, rfl, ?_, hbroken⟩
  intro k hfirst hk
  rcases Nat.lt_succ_iff_lt_or_eq.mp hk with hbefore | rfl
  · exact hheld k hfirst hbefore
  · exact hn

/-- A cycle in which `i` does not hold begins a new stretch. -/
theorem streak_broken {i : Nat → Bool} {n : Nat} (hn : i n = false) : Streak i (n + 1) 0 := by
  refine ⟨n + 1, rfl, ?_, ?_⟩
  · intro k hfirst hk
    omega
  · rintro k hk
    obtain rfl : k = n := Nat.succ.inj hk
    exact hn

/-- There is one such stretch only. -/
theorem Streak.unique {i : Nat → Bool} {n m m' : Nat} (h : Streak i n m) (h' : Streak i n m') :
    m = m' := by
  -- The cycle in front of the shorter stretch would belong to the longer one.
  have hle : ∀ {m m' : Nat}, Streak i n m → Streak i n m' → m ≤ m' := by
    rintro m m' ⟨first, hfirst, hheld, -⟩ ⟨first', hfirst', -, hbroken⟩
    by_contra hlt
    obtain ⟨k, rfl⟩ : ∃ k, first' = k + 1 := ⟨first' - 1, by omega⟩
    have hk := hbroken k rfl
    rw [hheld k (by omega) (by omega)] at hk
    cases hk
  exact Nat.le_antisymm (hle h h') (hle h' h)

namespace Verdict

/-- **A latch is on** exactly if it has been set and not been reset since. -/
theorem latch_eq_some {set reset : Nat → Bool} {on off : Nat → Option Bool} {n : Nat}
    (hset : ∀ k ≤ n, on k = some (set k)) (hreset : ∀ k ≤ n, off k = some (reset k)) :
    ∃ lit, latch on off n = some lit ∧
      (lit = true ↔ ∃ k ≤ n, set k = true ∧ ∀ j, k < j → j ≤ n → reset j = false) := by
  induction n with
  | zero =>
      refine ⟨set 0, ?_, ?_⟩
      · simp [latch, hset 0 (Nat.le_refl 0), hreset 0 (Nat.le_refl 0)]
      · constructor
        · intro h
          exact ⟨0, Nat.le_refl 0, h, fun j hj hj' => by omega⟩
        · rintro ⟨k, hk, h, -⟩
          rwa [Nat.le_zero.mp hk] at h
  | succ n ih =>
      obtain ⟨held, hheld, hiff⟩ := ih (fun k hk => hset k (Nat.le_succ_of_le hk))
        fun k hk => hreset k (Nat.le_succ_of_le hk)
      refine ⟨set (n + 1) || held && !reset (n + 1), ?_, ?_⟩
      · simp [latch, hheld, hset (n + 1) (Nat.le_refl _), hreset (n + 1) (Nat.le_refl _)]
      rw [Bool.or_eq_true, Bool.and_eq_true, Bool.not_eq_true', hiff]
      constructor
      · rintro (hnow | ⟨⟨k, hk, hk', hkept⟩, hnow⟩)
        · exact ⟨n + 1, Nat.le_refl _, hnow, fun j hj hj' => by omega⟩
        · refine ⟨k, Nat.le_succ_of_le hk, hk', ?_⟩
          intro j hj hj'
          rcases Nat.le_succ_iff.mp hj' with hbefore | rfl
          · exact hkept j hj hbefore
          · exact hnow
      · rintro ⟨k, hk, hk', hkept⟩
        rcases Nat.le_succ_iff.mp hk with hbefore | rfl
        · exact Or.inr ⟨⟨k, hbefore, hk', fun j hj hj' => hkept j hj (Nat.le_succ_of_le hj')⟩,
            hkept (n + 1) (Nat.lt_succ_of_le hbefore) (Nat.le_refl _)⟩
        · exact Or.inl hk'

variable {α : Type} [Scalar α]

/-- **For how long something has held**: one period for each cycle in front of
this one in which it has held without a break. -/
theorem since_eq_some {i : Nat → Bool} {x : Nat → Option Bool} {periods : Nat → α} {period : α}
    {n : Nat} (hx : ∀ k ≤ n, x k = some (i k)) (hperiods : ∀ k ≤ n, periods k = period) :
    ∃ m, Streak i n m ∧
      since periods x n = some (if i n then some ((· + period)^[m] 0) else none) := by
  induction n with
  | zero => exact ⟨0, streak_zero i, by simp [since, hx 0 (Nat.le_refl 0)]⟩
  | succ n ih =>
      obtain ⟨m, hstreak, hsince⟩ := ih (fun k hk => hx k (Nat.le_succ_of_le hk))
        fun k hk => hperiods k (Nat.le_succ_of_le hk)
      have hperiod := hperiods (n + 1) (Nat.le_refl _)
      have hnow := hx (n + 1) (Nat.le_refl _)
      cases hbefore : i n with
      | false =>
          refine ⟨0, streak_broken hbefore, ?_⟩
          cases hi : i (n + 1) <;> simp [since, hnow, hi, hsince, hbefore]
      | true =>
          refine ⟨m + 1, hstreak.extend hbefore, ?_⟩
          cases hi : i (n + 1) <;>
            simp [since, hnow, hi, hsince, hbefore, hperiod, Function.iterate_succ_apply']

end Verdict

/-! ### Blocks -/

section Blocks

variable {α : Type}

/-- The primitives that keep a boolean, or for how long one has been true. -/
def Primitive.keepsBoolean : Primitive α → Bool
  | edge _ | latch | timer _ => true
  | _ => false

theorem Primitive.isSink_of_keepsBoolean {primitive : Primitive α}
    (h : primitive.keepsBoolean = true) : primitive.isSink = false := by
  cases primitive with
  | store slot => cases h
  | _ => rfl

/-- What a primitive that keeps a boolean puts out in cycle `n`, from what its
inputs have been in all cycles so far.  Before the first cycle an input was
false. -/
def Primitive.Recalls [Scalar α] (period : α) (n : Nat) :
    Primitive α → List (Nat → Bool) → Bool → Prop
  | edge rising, [i], out =>
    out = if rising then i n && !Simulator.before false i n else !i n && Simulator.before false i n
  | latch, [set, reset], out =>
    out = true ↔ ∃ k ≤ n, set k = true ∧ ∀ j, k < j → j ≤ n → reset j = false
  | timer duration, [i], out =>
    out = true ↔ i n = true ∧ ∃ m, Streak i n m ∧
      Scalar.le duration ((· + period)^[m] 0 + Scalar.decimal 1 9) = true
  | _, _, _ => False

namespace Simulator

variable [Scalar α] {s s' : Simulator α} {q source : PortId} {kind : Kind} {b : BlockId}
  {blk : Block α}

/-- An edge detector in a cycle: it remembers its input. -/
theorem Cycle.edge (h : Cycle s s') (hf : s.fragment.WellFormed) {rising : Bool}
    (hq : s.fragment.Produces q (.edge rising) [source] kind b blk) :
    ∃ now, s'.boolean? source = some now ∧
      s'.boolean? q = some (hasEdge rising now (s.memories.get? b)) ∧
      s'.memories.get? b = some (.edge now) := by
  obtain ⟨args, v, m, hargs, hreact, hvalue, hmemory⟩ := h.produces hf hq rfl
  obtain ⟨a, _, ha, hnil, rfl⟩ := List.forall₂_cons_left_iff.mp hargs
  cases hnil
  match a, hreact with
  | .boolean now, hreact =>
      cases hreact
      refine ⟨now, ?_, ?_, hmemory⟩
      · rw [boolean?, ha]
        rfl
      · rw [boolean?, hvalue]
        rfl

variable {f : Fragment α} {period : α} {s₀ : Simulator α} {x : Nat → Stimulus α} {n : Nat}

/-- **An edge detector over the cycles.** -/
theorem tells_edge (hf : f.WellFormed) (hstart : start f period = .ok s₀) {rising : Bool}
    (hq : f.Makes q (.edge rising) [source] kind) {i : Nat → Option Bool}
    (hsource : Tells x s₀ source i) : Tells x s₀ q (Course.edge rising i) := by
  obtain ⟨b, blk, hproduces⟩ := hq
  intro n s hdrive
  obtain ⟨before, hbefore, rfl, -, -, hcycle, -⟩ := drive_last hf hstart hdrive
  obtain ⟨now, hnow, hvalue, -⟩ := hcycle.edge hf hproduces
  rw [hsource hdrive] at hnow
  rw [hvalue, feed_memories]
  cases n with
  | zero =>
      cases hbefore
      rw [start_memories hstart]
      cases rising <;> simp [Course.edge, hnow, hasEdge]
  | succ n =>
      -- The memory was made in the cycle before.
      obtain ⟨earlier, -, hfragment, -, -, hcycle', -⟩ := drive_last hf hstart hbefore
      obtain ⟨past, hpast, -, hmemory⟩ := hcycle'.edge (hfragment.symm ▸ hf)
        (hfragment.symm ▸ hproduces)
      rw [hsource hbefore] at hpast
      simp [Course.edge, hnow, hpast, hmemory, hasEdge]

omit [Scalar α] in
/-- In a complete network a block that is no sink makes the value of its output
from ports that feed it. -/
theorem Ready.produces (h : Ready s) (hblk : s.fragment.blocks[b]? = some blk)
    (hsink : blk.primitive.isSink = false) :
    ∃ q sources kind, s.fragment.Produces q blk.primitive sources kind b blk := by
  have hout := h.wellFormed.sink hblk
  rw [hsink] at hout
  obtain ⟨q, hq⟩ := Option.isSome_iff_exists.mp (Option.isNone_eq_false_iff.mp hout.symm)
  obtain ⟨kind, hport⟩ := h.wellFormed.output hblk hq
  obtain ⟨sources, hsources⟩ := exists_forall₂_of_forall fun input hinput => by
    obtain ⟨j, hj⟩ := List.mem_iff_getElem?.mp hinput
    obtain ⟨_, hport⟩ := h.wellFormed.inputs hblk hj
    exact Fragment.openInput?_eq_none h.fed hport rfl
  exact ⟨q, sources, kind, hblk, rfl, hq, hport, hsources⟩

/-! ### Runs -/

/-- A port has carried the booleans `i` in all cycles up to `n`. -/
def HasCarried (x : Nat → Stimulus α) (s₀ : Simulator α) (n : Nat) (q : PortId) (i : Nat → Bool) :
    Prop :=
  ∀ k ≤ n, carriedIn x s₀ q k = some (i k)

/-- A run that has completed a cycle has completed those before. -/
theorem drive_prefix (hdrive : drive x (n + 1) s₀ = .ok s) {k : Nat} (hk : k ≤ n) :
    ∃ t, drive x (k + 1) s₀ = .ok t := by
  induction n generalizing s with
  | zero => exact ⟨s, Nat.le_zero.mp hk ▸ hdrive⟩
  | succ n ih =>
      rcases Nat.le_succ_iff.mp hk with hbefore | rfl
      · obtain ⟨t, ht, -⟩ := drive_succ_eq_ok.mp hdrive
        exact ih ht hbefore
      · exact ⟨s, hdrive⟩

/-- A port that no cycle completes without a boolean. -/
theorem exists_carried (hdrive : drive x (n + 1) s₀ = .ok s)
    (h : ∀ {k : Nat} {t : Simulator α}, drive x (k + 1) s₀ = .ok t → ∃ a, t.boolean? q = some a) :
    ∃ i, HasCarried x s₀ n q i := by
  refine ⟨fun k => (carriedIn x s₀ q k).getD false, ?_⟩
  intro k hk
  obtain ⟨t, ht⟩ := drive_prefix hdrive hk
  obtain ⟨a, ha⟩ := h ht
  have hnow : carriedIn x s₀ q k = some a := (carriedIn_eq ht).trans ha
  simp only [hnow, Option.getD_some]

/-- A port tells what it carries. -/
theorem tells_carriedIn (q : PortId) : Tells x s₀ q (carriedIn x s₀ q) := fun hdrive =>
  (carriedIn_eq hdrive).symm

section Recalls

variable (hf : f.WellFormed) (hstart : start f period = .ok s₀)
  (hdrive : drive x (n + 1) s₀ = .ok s)

include hf hstart hdrive

theorem recalls_edge {rising : Bool} (hq : f.Produces q (.edge rising) [source] kind b blk) :
    ∃ i out, HasCarried x s₀ n source i ∧ carriedIn x s₀ q n = some out ∧
      (Primitive.edge rising).Recalls period n [i] out := by
  obtain ⟨i, hi⟩ : ∃ i, HasCarried x s₀ n source i := exists_carried hdrive fun ht => by
    obtain ⟨_, -, hfragment, -, -, hcycle, -⟩ := drive_last hf hstart ht
    obtain ⟨now, hnow, -⟩ := hcycle.edge (hfragment.symm ▸ hf) (hfragment.symm ▸ hq)
    exact ⟨now, hnow⟩
  have hout := tells_edge hf hstart ⟨b, blk, hq⟩ (tells_carriedIn source) hdrive
  refine ⟨i, _, hi, (carriedIn_eq hdrive).trans (hout.trans ?_), rfl⟩
  cases n with
  | zero => cases rising <;> simp [Course.edge, before, hi 0 (Nat.le_refl 0)]
  | succ n => simp [Course.edge, before, hi n (Nat.le_succ n), hi (n + 1) (Nat.le_refl _)]

theorem recalls_latch {set reset : PortId}
    (hq : f.Produces q .latch [set, reset] kind b blk) :
    ∃ i j out, HasCarried x s₀ n set i ∧ HasCarried x s₀ n reset j ∧
      carriedIn x s₀ q n = some out ∧ Primitive.latch.Recalls period n [i, j] out := by
  have hcarry : ∀ {k : Nat} {t : Simulator α}, drive x (k + 1) s₀ = .ok t →
      (∃ on, t.boolean? set = some on) ∧ ∃ off, t.boolean? reset = some off := fun ht => by
    obtain ⟨_, -, hfragment, -, -, hcycle, -⟩ := drive_last hf hstart ht
    obtain ⟨on, off, hon, hoff, -⟩ := hcycle.latch (hfragment.symm ▸ hf) (hfragment.symm ▸ hq)
    exact ⟨⟨on, hon⟩, off, hoff⟩
  obtain ⟨i, hi⟩ := exists_carried hdrive fun ht => (hcarry ht).1
  obtain ⟨j, hj⟩ := exists_carried hdrive fun ht => (hcarry ht).2
  have hout := tells_latch hf hstart ⟨b, blk, hq⟩ (tells_carriedIn set) (tells_carriedIn reset)
    hdrive
  obtain ⟨out, hlatch, hiff⟩ := Verdict.latch_eq_some hi hj
  exact ⟨i, j, out, hi, hj, (carriedIn_eq hdrive).trans (hout.trans hlatch), hiff⟩

theorem recalls_timer {duration : α}
    (hq : f.Produces q (.timer duration) [source] kind b blk) :
    ∃ i out, HasCarried x s₀ n source i ∧ carriedIn x s₀ q n = some out ∧
      (Primitive.timer duration).Recalls period n [i] out := by
  obtain ⟨i, hi⟩ : ∃ i, HasCarried x s₀ n source i := exists_carried hdrive fun ht => by
    obtain ⟨_, -, hfragment, -, -, hcycle, -⟩ := drive_last hf hstart ht
    obtain ⟨now, hnow, -⟩ := hcycle.timer (hfragment.symm ▸ hf) (hfragment.symm ▸ hq)
    exact ⟨now, hnow⟩
  have hout := tells_timer hf hstart ⟨b, blk, hq⟩ (tells_carriedIn source) hdrive
  have hperiods : ∀ k ≤ n, (seen x s₀ k).period = period := by
    intro k hk
    obtain ⟨t, ht⟩ := drive_prefix hdrive hk
    obtain ⟨r, hr, -⟩ := drive_succ_eq_ok.mp ht
    rw [seen_eq hr, feed_period]
    exact (drive_keeps hf hstart hr).2.2
  obtain ⟨m, hstreak, hsince⟩ := Verdict.since_eq_some hi hperiods
  rw [Verdict.timer, hsince] at hout
  refine ⟨i, _, hi, (carriedIn_eq hdrive).trans hout, ?_⟩
  cases hnow : i n with
  | false => simp [Primitive.Recalls, hasElapsed, hnow]
  | true =>
      constructor
      · intro hlong
        exact ⟨hnow, m, hstreak, hlong⟩
      · rintro ⟨-, m', hstreak', hlong⟩
        rwa [hstreak'.unique hstreak] at hlong

end Recalls

/-- **What edge detectors, latches and timers put out in a run.**  In any
network that has been started, whatever else is in it and whatever it is fed,
such a block is fed booleans in every cycle, and the boolean that it puts out is
determined by those of all cycles so far. -/
theorem run_recalls (hf : f.Reachable) (hstart : start f period = .ok s₀)
    (x : Nat → Stimulus α) (hdrive : drive x (n + 1) s₀ = .ok s)
    (hblk : f.blocks[b]? = some blk) (hkeeps : blk.primitive.keepsBoolean = true) :
    ∃ q sources kind histories out, f.Produces q blk.primitive sources kind b blk ∧
      List.Forall₂ (HasCarried x s₀ n) sources histories ∧ carriedIn x s₀ q n = some out ∧
      blk.primitive.Recalls period n histories out := by
  have hwell := hf.wellFormed
  have hready := start_ready hwell hstart
  obtain ⟨-, -, hs₀⟩ := start_eq_ok hstart
  have hsame : s₀.fragment = f := by rw [hs₀]
  obtain ⟨q, sources, kind, hq⟩ :=
    hready.produces (hsame ▸ hblk) (Primitive.isSink_of_keepsBoolean hkeeps)
  rw [hsame] at hq
  have hlength := hq.fed.length_eq
  have harity := hwell.arity hblk
  generalize blk.primitive = primitive at hq hkeeps harity
  cases primitive with
  | edge rising =>
      obtain ⟨source, rfl⟩ := List.length_eq_one_iff.mp (hlength.symm.trans (harity 1 rfl))
      obtain ⟨i, out, hi, hout, hrecalls⟩ := recalls_edge hwell hstart hdrive hq
      exact ⟨q, _, kind, [i], out, hq, .cons hi .nil, hout, hrecalls⟩
  | latch =>
      obtain ⟨set, reset, rfl⟩ := List.length_eq_two.mp (hlength.symm.trans (harity 2 rfl))
      obtain ⟨i, j, out, hi, hj, hout, hrecalls⟩ := recalls_latch hwell hstart hdrive hq
      exact ⟨q, _, kind, [i, j], out, hq, .cons hi (.cons hj .nil), hout, hrecalls⟩
  | timer duration =>
      obtain ⟨source, rfl⟩ := List.length_eq_one_iff.mp (hlength.symm.trans (harity 1 rfl))
      obtain ⟨i, out, hi, hout, hrecalls⟩ := recalls_timer hwell hstart hdrive hq
      exact ⟨q, _, kind, [i], out, hq, .cons hi .nil, hout, hrecalls⟩
  | _ => cases hkeeps

end Simulator

end Blocks

/-! ### A latch and a timer in one network -/

/-- A latch for two inputs, a timer for the latch, and an edge detector for the
timer. -/
def Sample.alarm : Fragment Float :=
  Fragment.performAll [.addSource (.input "set") .boolean, .addSource (.input "reset") .boolean,
    .addWired .latch [0, 1] .boolean, .addWired (.timer 0.25) [4] .boolean,
    .addWired (.edge true) [6] .boolean] .empty

/-- Set and reset at once in the first cycle, and nothing in those after it. -/
def Sample.pushed (n : Nat) : Stimulus Float :=
  { inputs := [("set", .boolean (decide (n = 0))), ("reset", .boolean (decide (n = 0)))] }

namespace Simulator

/-- In the third cycle the latch has been on long enough for the timer. -/
theorem alarm_recalls : ∃ s₀ s i m, start Sample.alarm 0.125 = .ok s₀ ∧
    drive Sample.pushed 3 s₀ = .ok s ∧ carriedIn Sample.pushed s₀ 6 2 = some true ∧
    HasCarried Sample.pushed s₀ 2 4 i ∧ i 2 = true ∧ Streak i 2 m ∧
    Scalar.le (0.25 : Float) ((· + 0.125)^[m] 0 + Scalar.decimal 1 9) = true := by
  have hruns : (match start Sample.alarm 0.125 with
      | .error _ => none
      | .ok s₀ => match drive Sample.pushed 3 s₀ with
        | .error _ => none
        | .ok s => s.boolean? 6) = some true := by decide +kernel
  have hblk : Sample.alarm.blocks[3]? = some ⟨.timer 0.25, [5], some 6⟩ := by decide +kernel
  have hfed : Sample.alarm.producer? 5 = some 4 := by decide +kernel
  cases hstart : start Sample.alarm 0.125 with
  | error e => simp [hstart] at hruns
  | ok s₀ =>
      cases hdrive : drive Sample.pushed 3 s₀ with
      | error e => simp [hstart, hdrive] at hruns
      | ok s =>
          simp only [hstart, hdrive] at hruns
          obtain ⟨q, sources, kind, histories, out, hq, hcarried, hout, hrecalls⟩ :=
            run_recalls ⟨_, rfl⟩ hstart Sample.pushed hdrive hblk rfl
          obtain rfl : 6 = q := Option.some.inj hq.output
          obtain ⟨source, _, hsource, hnil, rfl⟩ := List.forall₂_cons_left_iff.mp hq.fed
          cases hnil
          obtain rfl : source = 4 := Option.some.inj (hsource.symm.trans hfed)
          obtain ⟨i, _, hi, hnil, rfl⟩ := List.forall₂_cons_left_iff.mp hcarried
          cases hnil
          obtain rfl : out = true :=
            Option.some.inj (hout.symm.trans ((carriedIn_eq hdrive).trans hruns))
          obtain ⟨hnow, m, hstreak, hlong⟩ := hrecalls.mp rfl
          exact ⟨s₀, s, i, m, rfl, hdrive, hout, hi, hnow, hstreak, hlong⟩

end Simulator

end SignalNet
