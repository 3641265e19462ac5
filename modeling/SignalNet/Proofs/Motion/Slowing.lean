import Mathlib.Tactic.Linarith
import SignalNet.Proofs.Compile.Meaning
import SignalNet.Proofs.Net.Equations
import SignalNet.Proofs.Scalar.Zeros

/-!
# How a scale comes down

A network can hold the loop of a scale (`Fragment.Scales`): the scale of a
cycle is that of the cycle before, less a step if cancellation was requested
then, and is kept between zero and one.

* `Fragment.Scales.cycle` is the step: what one cycle makes of the scale.
* `Fragment.Scales.recurs` puts the cycles of a run together, with the
  constants that the network happens to hold.
* `Fragment.Scales.run` is the result for a run, arithmetic read exactly: the
  scale is what `remaining` says, which looks at all requests so far.
* `remaining_eq_zero`: a request that lasts long enough brings it to zero.
-/

namespace SignalNet

open Computing

/-! ### What is left of a scale -/

section Remaining

variable {K : Type} [Field K] [LinearOrder K]

/-- What is left of a scale in a cycle, if each request in an earlier cycle
has taken away `rate`. -/
def remaining (rate : K) (requested : Nat → Bool) : Nat → K
  | 0 => 1
  | n + 1 => max 0 (remaining rate requested n - if requested n then rate else 0)

variable [IsStrictOrderedRing K] {rate : K} {requested : Nat → Bool}

theorem remaining_nonneg (n : Nat) : 0 ≤ remaining rate requested n := by
  cases n with
  | zero => exact zero_le_one
  | succ n => exact le_max_left _ _

theorem remaining_succ_le (hrate : 0 ≤ rate) (n : Nat) :
    remaining rate requested (n + 1) ≤ remaining rate requested n := by
  refine max_le (remaining_nonneg n) ?_
  split <;> linarith

theorem remaining_le_one (hrate : 0 ≤ rate) (n : Nat) : remaining rate requested n ≤ 1 := by
  induction n with
  | zero => exact le_refl _
  | succ n ih => exact (remaining_succ_le hrate n).trans ih

/-- A request that lasts takes away `rate` in every cycle. -/
theorem remaining_le (hrate : 0 ≤ rate) {k : Nat} (j : Nat)
    (h : ∀ i, k ≤ i → i < k + j → requested i = true) :
    remaining rate requested (k + j) ≤ max 0 (1 - j * rate) := by
  induction j with
  | zero =>
      refine (remaining_le_one hrate _).trans (le_max_of_le_right ?_)
      simp
  | succ j ih =>
      have hbefore := ih fun i hk hi => h i hk (Nat.lt_succ_of_lt hi)
      have hnow : requested (k + j) = true := h (k + j) (Nat.le_add_right k j) (Nat.lt_succ_self _)
      show max 0 (remaining rate requested (k + j) - if requested (k + j) then rate else 0) ≤ _
      rw [if_pos hnow]
      refine max_le (le_max_left _ _) ?_
      rcases le_max_iff.mp hbefore with hzero | hsome
      · exact le_max_of_le_left (by linarith)
      · refine le_max_of_le_right ?_
        push_cast
        linarith

/-- **A request that lasts long enough leaves nothing.** -/
theorem remaining_eq_zero (hrate : 0 ≤ rate) {k n : Nat} (hkn : k ≤ n)
    (h : ∀ i, k ≤ i → i < n → requested i = true) (hlong : 1 ≤ ((n - k : Nat) : K) * rate) :
    remaining rate requested n = 0 := by
  obtain ⟨j, rfl⟩ := Nat.exists_eq_add_of_le hkn
  rw [Nat.add_sub_cancel_left] at hlong
  have hle := remaining_le hrate j h
  rw [max_eq_left (by linarith)] at hle
  exact le_antisymm hle (remaining_nonneg _)

end Remaining

variable {α : Type} [Scalar α]

/-! ### The loop in a network -/

/-- The ports behind a scale. -/
structure ScalePorts where
  /-- The scale before it is limited. -/
  change : PortId
  previous : PortId
  state : PortId
  step : PortId
  requested : PortId
  request : PortId
  rate : PortId
  period : PortId
  stopped : PortId
  full : PortId

/-- The constants in the loop of a scale. -/
structure ScaleConstants (α : Type) where
  /-- What the scale is before the first cycle. -/
  initial : α
  /-- The deceleration time. -/
  seconds : α
  stopped : α
  full : α

/-- The constants as they are written down. -/
def ScaleConstants.plain (deceleration : α) : ScaleConstants α :=
  ⟨1, deceleration, 0, 1⟩

/-- The constants are those that are written down, up to sharing. -/
structure ScaleConstants.Shares (k : ScaleConstants α) (deceleration : α) : Prop where
  initial : Scalar.same k.initial 1 = true
  seconds : Scalar.same k.seconds deceleration = true
  stopped : Scalar.same k.stopped 0 = true
  full : Scalar.same k.full 1 = true

/-- By how much the scale comes down in a cycle.  A division by one may be
left out. -/
def ScaleConstants.IsRate (k : ScaleConstants α) (period rate : α) : Prop :=
  rate = period / k.seconds ∨ rate = period ∧ Scalar.eqv k.seconds 1 = true

namespace Fragment

/-- A port carries what a primitive makes of other ports, whatever its
kind. -/
def Applies (f : Fragment α) (q : PortId) (primitive : Primitive α) (sources : List PortId) :
    Prop :=
  ∃ kind, f.Makes q primitive sources kind

/-- A port carries the disjunction of other ports. -/
def Joins (f : Fragment α) (requests : List PortId) (q : PortId) : Prop :=
  requests = [q] ∨ f.Applies q .anyOf requests

omit [Scalar α] in
theorem Joins.extend {f g : Fragment α} {requests : List PortId} {q : PortId}
    (h : f.Joins requests q) (hg : f.Extends g) : g.Joins requests q := by
  rcases h with heq | ⟨kind, hmakes⟩
  · exact Or.inl heq
  · exact Or.inr ⟨kind, hmakes.extend hg⟩

/-- The port `q` carries a scale that comes down while `cancel` holds. -/
structure Scales (f : Fragment α) (k : ScaleConstants α) (q cancel : PortId)
    (ports : ScalePorts) : Prop where
  scale : f.Applies q .limit [ports.change, ports.stopped, ports.full]
  change : f.Applies ports.change (.binary .sub) [ports.previous, ports.step]
  previous : f.Applies ports.previous (.pre (.double k.initial)) [ports.state]
  state : f.Applies ports.state .identity [q]
  step : f.Applies ports.step .select [ports.requested, ports.rate, ports.stopped]
  requested : f.Applies ports.requested (.pre (.boolean false)) [ports.request]
  request : f.Applies ports.request .identity [cancel]
  /-- A division by one may be left out. -/
  rate : (∃ seconds, f.Applies ports.rate (.binary .div) [ports.period, seconds] ∧
      f.Applies seconds (.constant (.double k.seconds)) []) ∨
    ports.rate = ports.period ∧ Scalar.eqv k.seconds 1 = true
  period : f.Applies ports.period (.clock .period) []
  stopped : f.Applies ports.stopped (.constant (.double k.stopped)) []
  full : f.Applies ports.full (.constant (.double k.full)) []

end Fragment

/-! ### One cycle -/

namespace Simulator

variable {s s' : Simulator α} {q : PortId} {sources : List PortId}

/-- A block that is no delay reacts to what its sources carry. -/
theorem Cycle.applies (h : Cycle s s') (hf : s.fragment.WellFormed) {primitive : Primitive α}
    (hq : s.fragment.Applies q primitive sources) (hdelay : primitive.isDelay = false)
    {args : List (Value α)}
    (hargs : List.Forall₂ (fun source a => s'.value? source = some a) sources args) :
    ∃ kind memory v m, primitive.react s.around kind memory args = .ok (v, m) ∧
      s'.value? q = some v := by
  obtain ⟨kind, hmakes⟩ := hq
  obtain ⟨args', v, m, memory, hargs', hreact, hvalue⟩ := h.makes hf hmakes hdelay
  have hunique : Relator.RightUnique fun source a => s'.value? source = some a := by
    intro source a a' ha ha'
    rw [ha] at ha'
    exact Option.some.inj ha'
  rw [hunique.forall₂ hargs' hargs] at hreact
  exact ⟨kind, memory, v, m, hreact, hvalue⟩

theorem Cycle.applies_constant (h : Cycle s s') (hf : s.fragment.WellFormed) {v : Value α}
    (hq : s.fragment.Applies q (.constant v) []) : s'.value? q = some v := by
  obtain ⟨kind, hmakes⟩ := hq
  exact h.constant hf hmakes

theorem Cycle.applies_period (h : Cycle s s') (hf : s.fragment.WellFormed)
    (hq : s.fragment.Applies q (.clock .period) []) :
    s'.value? q = some (.double s.around.period) := by
  obtain ⟨_, _, v, m, hreact, hvalue⟩ := h.applies hf hq rfl .nil
  cases hreact
  exact hvalue

theorem Cycle.applies_identity (h : Cycle s s') (hf : s.fragment.WellFormed) {source : PortId}
    (hq : s.fragment.Applies q .identity [source]) {v : Value α} (hv : s'.value? q = some v) :
    s'.value? source = some v := by
  obtain ⟨kind, hmakes⟩ := hq
  obtain ⟨args, w, m, memory, hargs, hreact, hvalue⟩ := h.makes hf hmakes rfl
  obtain ⟨_, _, hsource, hnil, rfl⟩ := List.forall₂_cons_left_iff.mp hargs
  cases hnil
  cases hreact
  rw [hv] at hvalue
  exact hsource.trans hvalue.symm

/-- A comparison of two doubles. -/
theorem Cycle.applies_lessEq (h : Cycle s s') (hf : s.fragment.WellFormed) {x y : PortId}
    (hq : s.fragment.Applies q (.compare .lessEq) [x, y]) {a b : α}
    (ha : s'.value? x = some (.double a)) (hb : s'.value? y = some (.double b)) :
    s'.value? q = some (.boolean (Scalar.le a b)) := by
  obtain ⟨_, _, v, m, hreact, hv⟩ := h.applies hf hq rfl (.cons ha (.cons hb .nil))
  cases hreact
  rw [hv, Scalar.le]
  rcases Scalar.compare? a b with _ | _ | _ | _ <;> rfl

/-- The booleans that ports carry. -/
theorem any_booleans {requests : List PortId} {bs : List Bool}
    (h : List.Forall₂ (fun source b => s'.value? source = some (.boolean b)) requests bs) :
    bs.any id = requests.any fun r => s'.value? r == some (.boolean true) := by
  induction h with
  | nil => rfl
  | @cons r b _ _ hb _ ih =>
      rw [List.any_cons, List.any_cons, ih, hb]
      cases b <;> rfl

/-- The disjunction of ports. -/
theorem Cycle.joins (h : Cycle s s') (hf : s.fragment.WellFormed) {requests : List PortId}
    (hq : s.fragment.Joins requests q) {b : Bool} (hb : s'.value? q = some (.boolean b)) :
    b = requests.any fun r => s'.value? r == some (.boolean true) := by
  rcases hq with rfl | ⟨kind, hmakes⟩
  · cases b <;> simp [hb]
  · obtain ⟨bs, hports, hvalue⟩ := h.connective hf hmakes rfl
    rw [hb] at hvalue
    cases hvalue
    exact any_booleans hports

end Simulator

/-- **What one cycle makes of a scale.** -/
theorem Fragment.Scales.cycle {s s' : Simulator α} (hcycle : Simulator.Cycle s s')
    (hf : s.fragment.WellFormed) {k : ScaleConstants α} {q cancel : PortId} {ports : ScalePorts}
    (h : s.fragment.Scales k q cancel ports) {a : α}
    (ha : s'.value? ports.previous = some (.double a)) :
    ∃ b rate, s'.value? ports.requested = some (.boolean b) ∧ k.IsRate s.around.period rate ∧
      s'.value? q =
        some (.double (Scalar.limit (a - if b then rate else k.stopped) k.stopped k.full)) := by
  have hperiod := hcycle.applies_period hf h.period
  have hstopped := hcycle.applies_constant hf h.stopped
  have hfull := hcycle.applies_constant hf h.full
  obtain ⟨rate, hrate, hisRate⟩ : ∃ rate, s'.value? ports.rate = some (.double rate) ∧
      k.IsRate s.around.period rate := by
    rcases h.rate with ⟨seconds, hdiv, hseconds⟩ | ⟨heq, hone⟩
    · have hvalue := hcycle.applies_constant hf hseconds
      obtain ⟨_, _, v, m, hreact, hv⟩ :=
        hcycle.applies hf hdiv rfl (.cons hperiod (.cons hvalue .nil))
      cases hreact
      exact ⟨_, hv, Or.inl rfl⟩
    · exact ⟨_, heq ▸ hperiod, Or.inr ⟨rfl, hone⟩⟩
  obtain ⟨w, hw⟩ : ∃ w, s'.value? ports.requested = some w := by
    obtain ⟨kind, b, blk, hproduces⟩ := h.requested
    obtain ⟨_, -, hvalue, -⟩ := hcycle.produces_delay hproduces
    exact ⟨_, hvalue⟩
  obtain ⟨_, _, d, m, hstep, hd⟩ :=
    hcycle.applies hf h.step rfl (.cons hw (.cons hrate (.cons hstopped .nil)))
  obtain ⟨hselect, -⟩ := operator_eq_ok.mp hstep
  cases w with
  | boolean b =>
      have hdouble : d = .double (if b then rate else k.stopped) := by
        cases b <;> simpa [Value.select?] using hselect.symm
      subst hdouble
      obtain ⟨_, _, e, _, hsub, he⟩ := hcycle.applies hf h.change rfl (.cons ha (.cons hd .nil))
      cases hsub
      obtain ⟨_, _, v, _, hlimit, hv⟩ :=
        hcycle.applies hf h.scale rfl (.cons he (.cons hstopped (.cons hfull .nil)))
      cases hlimit
      exact ⟨b, rate, hw, hisRate, hv⟩
  | _ => cases hselect

/-! ### Runs -/

namespace Simulator

/-- One of the ports carries `true` in a cycle of a run. -/
def requestedIn (x : Nat → Stimulus α) (s₀ : Simulator α) (requests : List PortId) (n : Nat) :
    Bool :=
  match drive x (n + 1) s₀ with
  | .ok s => requests.any fun q => s.value? q == some (.boolean true)
  | .error _ => false

/-- The double that a port carries in a cycle of a run. -/
def numberIn (x : Nat → Stimulus α) (s₀ : Simulator α) (q : PortId) (n : Nat) : Option α :=
  match drive x (n + 1) s₀ with
  | .ok s => s.double? q
  | .error _ => none

/-- What was the case in the cycle before, and `initial` in the first cycle. -/
def before {β : Type} (initial : β) (course : Nat → β) : Nat → β
  | 0 => initial
  | n + 1 => course n

variable {f : Fragment α} {period : α} {s₀ s' : Simulator α} {x : Nat → Stimulus α} {n : Nat}

theorem numberIn_eq (h : drive x (n + 1) s₀ = .ok s') {q : PortId} {v : α}
    (hv : s'.value? q = some (.double v)) : numberIn x s₀ q n = some v := by
  rw [numberIn, h]
  show (s'.value? q).bind Value.asDouble? = some v
  rw [hv]
  rfl

/-- A network is only started with a period that is positive. -/
theorem start_positive (h : start f period = .ok s₀) : Scalar.lt 0 period = true := by
  unfold start at h
  split at h
  · cases h
  · next hgood => exact (Bool.and_eq_true_iff.mp (by simpa using hgood)).2

/-- A delay carries what its source carried in the cycle before. -/
theorem drive_applies_delay (hf : f.WellFormed) (hstart : start f period = .ok s₀)
    (hdrive : drive x (n + 1) s₀ = .ok s') {q source : PortId} {initial : Value α}
    (hq : f.Applies q (.pre initial) [source]) :
    ∃ s v, drive x n s₀ = .ok s ∧ s'.value? q = some v ∧
      if n = 0 then v = initial else s.value? source = some v := by
  obtain ⟨s, hbefore, hfragment, -, -, hcycle, -⟩ := drive_last hf hstart hdrive
  obtain ⟨kind, b, blk, hproduces⟩ := hq
  obtain ⟨_, -, hvalue, -⟩ := hcycle.produces_delay (hfragment ▸ hproduces)
  rw [delayed, feed_memories, ← delayed] at hvalue
  refine ⟨s, _, hbefore, hvalue, ?_⟩
  rcases drive_delay hf hstart hbefore hproduces.block hproduces.primitive with
    ⟨hn, hinitial⟩ | ⟨hn, hcarried⟩
  · rw [if_pos hn]
    exact hinitial
  · rw [if_neg (Nat.pos_iff_ne_zero.mp hn)]
    have hargs := hcarried.of_fed hproduces.fed
    cases hargs with
    | cons hsource _ => exact hsource

end Simulator

open Simulator in
/-- **A scale from cycle to cycle.**  It starts at its initial value, and the
requests of the cycle before take effect. -/
theorem Fragment.Scales.recurs {f : Fragment α} (hf : f.WellFormed) {k : ScaleConstants α}
    {q cancel : PortId} {ports : ScalePorts} (h : f.Scales k q cancel ports)
    {requests : List PortId} (hjoins : f.Joins requests cancel) {period : α} {s₀ : Simulator α}
    (hstart : start f period = .ok s₀) {x : Nat → Stimulus α} {n : Nat} {s : Simulator α}
    (hdrive : drive x (n + 1) s₀ = .ok s) :
    ∃ a rate, before (some k.initial) (numberIn x s₀ q) n = some a ∧ k.IsRate period rate ∧
      s.value? q = some (.double (Scalar.limit
        (a - if before false (requestedIn x s₀ requests) n then rate else k.stopped)
        k.stopped k.full)) := by
  induction n generalizing s with
  | zero =>
      obtain ⟨_, -, rfl, -, rfl, hcycle, -⟩ := drive_last hf hstart hdrive
      obtain ⟨_, v, -, hprevious, hv⟩ := drive_applies_delay hf hstart hdrive h.previous
      obtain ⟨_, w, -, hrequested, hw⟩ := drive_applies_delay hf hstart hdrive h.requested
      rw [if_pos rfl] at hv hw
      subst hv hw
      obtain ⟨b, rate, hb, hrate, hscale⟩ := h.cycle hcycle hf hprevious
      rw [hrequested] at hb
      cases hb
      exact ⟨k.initial, rate, rfl, hrate, hscale⟩
  | succ n ih =>
      obtain ⟨_, -, hfragment, -, hperiod, hcycle, -⟩ := drive_last hf hstart hdrive
      obtain ⟨t, v, ht, hprevious, hv⟩ := drive_applies_delay hf hstart hdrive h.previous
      obtain ⟨t', w, ht', hrequested, hw⟩ := drive_applies_delay hf hstart hdrive h.requested
      rw [ht] at ht'
      cases ht'
      rw [if_neg (Nat.succ_ne_zero n)] at hv hw
      -- The copies of scale and request belong to the cycle before.
      obtain ⟨_, -, hfragment', -, -, hcycle', -⟩ := drive_last hf hstart ht
      have hf' := hfragment' ▸ hf
      obtain ⟨_, _, -, -, hscale'⟩ := ih ht
      have hv' := hcycle'.applies_identity hf' (hfragment' ▸ h.state) hv
      rw [hscale'] at hv'
      cases hv'
      obtain ⟨b, rate, hb, hrate, hscale⟩ :=
        Fragment.Scales.cycle hcycle (hfragment ▸ hf) (hfragment ▸ h) hprevious
      rw [hrequested] at hb
      cases hb
      have hw' := hcycle'.applies_identity hf' (hfragment' ▸ h.request) hw
      have hnow : requestedIn x s₀ requests n = b := by
        rw [hcycle'.joins hf' (hfragment' ▸ hjoins) hw', requestedIn, ht]
      rw [hperiod] at hrate
      refine ⟨_, rate, numberIn_eq ht hscale', hrate, ?_⟩
      rw [before, hnow]
      exact hscale

open Simulator in
/-- **How a scale comes down in a run.** -/
theorem Fragment.Scales.run {f : Fragment α} (hf : f.WellFormed) {deceleration : α}
    (hdeceleration : Scalar.lt 0 deceleration = true) {q cancel : PortId} {ports : ScalePorts}
    (h : f.Scales (.plain deceleration) q cancel ports) {requests : List PortId}
    (hjoins : f.Joins requests cancel) {K : Type} [Field K] [LinearOrder K]
    [IsStrictOrderedRing K] (reading : Scalar.Exact α K) {period : α} {s₀ : Simulator α}
    (hstart : start f period = .ok s₀) {x : Nat → Stimulus α} {n : Nat} {s : Simulator α}
    (hdrive : drive x (n + 1) s₀ = .ok s) :
    ∃ v, s.value? q = some (.double v) ∧ reading.read v =
      remaining (reading.read period / reading.read deceleration)
        (requestedIn x s₀ requests) n := by
  have hpositive : 0 ≤ reading.read period / reading.read deceleration := by
    have hperiod := reading.lt_iff.mp (start_positive hstart)
    have hseconds := reading.lt_iff.mp hdeceleration
    rw [reading.zero] at hperiod hseconds
    exact (div_pos hperiod hseconds).le
  -- The rate is the quotient, also where the division is left out.
  have hread : ∀ {rate}, (ScaleConstants.plain deceleration).IsRate period rate →
      reading.read rate = reading.read period / reading.read deceleration := by
    intro rate hrate
    rcases hrate with rfl | ⟨rfl, hone⟩
    · exact reading.div _ _
    · have hseconds : reading.read deceleration = 1 := by
        rw [← reading.one]
        exact reading.eqv_iff.mp hone
      rw [hseconds, div_one]
  have hlimit : ∀ a : α, reading.read (Scalar.limit a 0 1) = min (max (reading.read a) 0) 1 := by
    intro a
    rw [Scalar.limit, reading.read_minNum, reading.read_maxNum, reading.zero, reading.one]
  induction n generalizing s with
  | zero =>
      obtain ⟨a, rate, ha, -, hscale⟩ := h.recurs hf hjoins hstart hdrive
      obtain rfl : (1 : α) = a := Option.some.inj ha
      refine ⟨_, hscale, (hlimit _).trans ?_⟩
      simp [before, remaining, ScaleConstants.plain, reading.sub, reading.zero, reading.one]
  | succ n ih =>
      obtain ⟨a, rate, ha, hrate, hscale⟩ := h.recurs hf hjoins hstart hdrive
      obtain ⟨t, ht, -⟩ := drive_succ_eq_ok.mp hdrive
      obtain ⟨a', ha', hleft⟩ := ih ht
      obtain rfl : a = a' := Option.some.inj (ha.symm.trans (numberIn_eq ht ha'))
      refine ⟨_, hscale, (hlimit _).trans ?_⟩
      have hone : remaining (reading.read period / reading.read deceleration)
          (requestedIn x s₀ requests) n ≤ 1 := remaining_le_one hpositive n
      rw [before, reading.sub, hleft, remaining, max_comm]
      cases requestedIn x s₀ requests n with
      | true =>
          rw [if_pos rfl, if_pos rfl, hread hrate]
          exact min_eq_left (max_le zero_le_one (by linarith))
      | false =>
          rw [if_neg Bool.false_ne_true, if_neg Bool.false_ne_true]
          rw [show reading.read (ScaleConstants.plain deceleration).stopped = 0 from reading.zero]
          exact min_eq_left (max_le zero_le_one (by linarith))

end SignalNet
