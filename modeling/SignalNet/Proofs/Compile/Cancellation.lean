import SignalNet.Proofs.Compile.Commands
import SignalNet.Proofs.Compile.Soundness

/-!
# Cancellation

A compiled command slows down while its cancellation is requested, arithmetic
read exactly.  `Compiler.command_slows_down` is the result: in every cycle the
scale is what the requests so far have left of it, and a request that lasts
for the deceleration time brings it to zero.

A request has to last.  The loop looks at the cycle before and nothing keeps a
request that is taken back, so a pulse takes away one step and the command
goes on at what is left (`Compiler.pulse_slows_once`).
-/

namespace SignalNet

open Computing Lowering

variable {α : Type} [Scalar α]

/-! ### The loop, read exactly -/

namespace Session

variable {program : Program α} {s s' : Session α} {c : Command α}

/-- Compiling a command leaves the loop of its scale, and closes it. -/
theorem compile_cancels (hp : program.pool.WellFormed)
    (hapart : c.cancel ≠ c.scaleState ∧ c.cancel ∉ c.action.placeholders ∧
      c.scaleState ∉ c.action.placeholders) {request : Request α}
    (htarget : request.target = .command c) {net : CompiledNet α}
    (hrun : Session.compile program request empty = .ok net s') :
    ∃ action handled t q cancel, lowerRequests program c empty = .ok (action, handled) t ∧
      Wired program s' ∧ Cancels c handled.cancels q cancel s' ∧
      s'.fragment = net.fragment ∧ Resolved program s' := by
  obtain ⟨action, handled, t, ports, hrequests, ⟨hwired, -⟩, hserves, hfragment, hresolved, -⟩ :=
    compile_serves hp hapart htarget hrun
  exact ⟨action, handled, t, ports.scale, ports.cancel, hrequests, hwired, hserves.toCancels,
    hfragment, hresolved⟩

variable {K : Type} [Field K] [LinearOrder K] (reading : Scalar.Exact α K)

include reading

/-- The port of an expression applies the primitive of its form. -/
theorem Wired.applies (h : Wired program s) {id : ExprId} {q : PortId} {form : Form α}
    {primitive : Primitive α} (hkeeps : program.rules.Keeps form) (hq : s.lowered.get? id = some q)
    (hform : program.pool.Holds id form)
    (hprimitive : form.primitive? program.parameters = some primitive) :
    ∃ sources, s.fragment.Applies q primitive sources ∧
      List.Forall₂ (fun d source => s.lowered.get? d = some source) form.dependencies sources := by
  obtain ⟨n, hn, hcanonical⟩ := hform
  obtain rfl := reading.form_eq hcanonical
  exact h.applies_node hq hn hkeeps hprimitive

/-- The network of a command holds the loop of its scale as it was written
down. -/
theorem Cancels.scales (hrules : program.rules.KeepAll Form.inScale) (h : Wired program s)
    (hresolved : Resolved program s) {parts : ScaleParts} (hscaled : c.Scaled program.pool parts) {requests : List PortId}
    {q cancel : PortId} (hcancels : Cancels c requests q cancel s) :
    ∃ ports, s.fragment.Scales (.plain c.deceleration) q cancel ports := by
  obtain ⟨k, ports, hshares, hscales⟩ := hcancels.loops hrules h hresolved hscaled
  have heq : k = .plain c.deceleration := by
    obtain ⟨initial, seconds, stopped, full⟩ := k
    obtain ⟨hinitial, hseconds, hstopped, hfull⟩ := hshares
    obtain rfl : initial = 1 := reading.eq_of_same hinitial
    obtain rfl : seconds = c.deceleration := reading.eq_of_same hseconds
    obtain rfl : stopped = 0 := reading.eq_of_same hstopped
    obtain rfl : full = 1 := reading.eq_of_same hfull
    rfl
  exact ⟨ports, heq ▸ hscales⟩

end Session

/-! ### Commands in a run -/

section Commands

variable {K : Type} [Field K] [LinearOrder K] [IsStrictOrderedRing K]

/-- In every cycle of every run, as long as no cycle fails, the port `q`
carries what the requests in earlier cycles have left of a scale.  It carries
zero if cancellation has been requested in all cycles since `k`, and these
make up the deceleration time. -/
def CompiledNet.SlowsDown (net : CompiledNet α) (reading : Scalar.Exact α K) (deceleration : α)
    (q : PortId) (requests : List PortId) : Prop :=
  ∀ (period : α) (x : Nat → Stimulus α) (n : Nat) (s₀ s : Simulator α),
    Simulator.start net.fragment period = .ok s₀ → Simulator.drive x (n + 1) s₀ = .ok s →
    ∃ v, s.value? q = some (.double v) ∧
      reading.read v = remaining (reading.read period / reading.read deceleration)
        (Simulator.requestedIn x s₀ requests) n ∧
      ∀ k ≤ n, (∀ i, k ≤ i → i < n → Simulator.requestedIn x s₀ requests i = true) →
        reading.read deceleration ≤ ((n - k : Nat) : K) * reading.read period → v = 0

/-- A loop in the network of a command. -/
theorem CompiledNet.slowsDown {net : CompiledNet α} (hf : net.fragment.WellFormed)
    {deceleration : α} (hpositive : Scalar.lt 0 deceleration = true) {q cancel : PortId}
    {ports : ScalePorts} (hscales : net.fragment.Scales (.plain deceleration) q cancel ports)
    {requests : List PortId} (hjoins : net.fragment.Joins requests cancel)
    (reading : Scalar.Exact α K) : net.SlowsDown reading deceleration q requests := by
  intro period x n s₀ s hstart hdrive
  obtain ⟨v, hv, hread⟩ := hscales.run hf hpositive hjoins reading hstart hdrive
  refine ⟨v, hv, hread, ?_⟩
  intro k hk hrequested hlong
  have hseconds := reading.lt_iff.mp hpositive
  have hperiod := reading.lt_iff.mp (Simulator.start_positive hstart)
  rw [reading.zero] at hseconds hperiod
  have hzero : reading.read v = 0 := by
    rw [hread]
    refine remaining_eq_zero (div_pos hperiod hseconds).le hk hrequested ?_
    rwa [mul_div_assoc', one_le_div hseconds]
  exact reading.injective (hzero.trans reading.zero.symm)

/-- **Compiling a command** gives a network in which its scale slows down. -/
theorem Session.compile_slowsDown (reading : Scalar.Exact α K) {program : Program α}
    (hp : program.pool.WellFormed) (hrules : program.rules.KeepAll Form.inScale) {c : Command α} (hc : c.Built program.pool) {request : Request α}
    (htarget : request.target = .command c) {net : CompiledNet α} {session : Session α}
    (hrun : Session.compile program request .empty = .ok net session) :
    Scalar.lt 0 c.deceleration = true ∧ ∃ q action handled before input,
      session.lowered.get? c.scale = some q ∧
      Session.lowerRequests program c .empty = .ok (action, handled) before ∧
      [input] <+: handled.cancels ∧ net.fragment.Applies input (.input c.cancelInputName) [] ∧
      net.SlowsDown reading c.deceleration q handled.cancels := by
  obtain ⟨parts, hscaled⟩ := hc.scaled
  obtain ⟨action, handled, before, q, cancel, hrequests, hwired, hcancels, hfragment, hresolved⟩ :=
    Session.compile_cancels hp hscaled.apart htarget hrun
  obtain ⟨ports, hscales⟩ := hcancels.scales reading hrules hwired hresolved hscaled
  obtain ⟨input, hinput, hfirst⟩ := hcancels.input
  obtain ⟨_, happlies, _ | _⟩ := hwired.applies reading (hrules rfl) hinput hscaled.cancelInput rfl
  exact ⟨hscaled.positive, q, action, handled, before, input, hcancels.scale, hrequests, hfirst,
    hfragment ▸ happlies,
    CompiledNet.slowsDown (hfragment ▸ hwired.wellFormed) hscaled.positive (hfragment ▸ hscales)
      (hfragment ▸ hcancels.joins) reading⟩

/-- **A command slows down while cancellation is requested.**  Let a command
that was built by calls be compiled with the rules of the library.  The ports
that request cancellation are its input for cancellation and the triggers of
its handlers.  Then the scale of the command comes down as these ports say,
arithmetic read exactly. -/
theorem Compiler.command_slows_down (reading : Scalar.Exact α K) {settings : Settings α}
    {pool : Pool α} (hpool : pool.Reachable) {host : Host α} {c : Command α} (hc : c.Built pool)
    {request : Request α} (htarget : request.target = .command c) {net : CompiledNet α}
    (hnet : Compiler.compile ⟨.standard, settings⟩ pool host request = .ok net) :
    let program : Program α := ⟨pool, .standard, request.parameters, settings, host⟩
    ∃ session q action handled before input,
      Session.compile program request .empty = .ok net session ∧
      session.lowered.get? c.scale = some q ∧
      Session.lowerRequests program c .empty = .ok (action, handled) before ∧
      [input] <+: handled.cancels ∧ net.fragment.Applies input (.input c.cancelInputName) [] ∧
      net.SlowsDown reading c.deceleration q handled.cancels := by
  intro program
  obtain ⟨session, hsession⟩ := compile_eq_ok hnet
  obtain ⟨-, q, action, handled, before, input, hslows⟩ :=
    Session.compile_slowsDown reading hpool.wellFormed (Rules.standard_keepAll _) hc htarget
      hsession
  exact ⟨session, q, action, handled, before, input, hsession, hslows⟩

end Commands

/-! ### A pause that is cancelled -/

/-- A command that waits. -/
def Sample.pause (duration deceleration : α) : Building α (Command α) :=
  Command.new "go" .global (Action.wait "pause" duration) (some deceleration)

/-- Compile the command for a program without devices. -/
def Sample.compilePause (p : Pool α) (c : Command α) :
    Except (CompileError α) (CompiledNet α) :=
  Compiler.compile ⟨.standard, .standard⟩ p .offline { target := .command c }

/-- The ports that request cancellation of the command. -/
def Sample.requests (p : Pool α) (c : Command α) : List PortId :=
  match Session.lowerRequests ⟨p, .standard, {}, .standard, .offline⟩ c .empty with
  | .ok (_, handled) _ => handled.cancels
  | .error _ _ => []

/-- Request cancellation in the first cycles. -/
def Sample.brief (cycles n : Nat) : Stimulus α :=
  { inputs := [("go.cancel", .boolean (decide (n < cycles)))] }

/-- Test the first state and the last one of a run. -/
def Sample.pauseRuns (duration deceleration period : α) (x : Nat → Stimulus α) (n : Nat)
    (test : Command α → List PortId → Simulator α → Simulator α → Bool) : Bool :=
  match Sample.pause duration deceleration { folding := true } with
  | .error _ _ => false
  | .ok c p =>
    match Sample.compilePause p c with
    | .error _ => false
    | .ok net =>
      match Simulator.start net.fragment period with
      | .error _ => false
      | .ok s₀ =>
        match Simulator.drive x n s₀ with
        | .error _ => false
        | .ok s => test c (Sample.requests p c) s₀ s

theorem Sample.pauseRuns_eq_true {duration deceleration period : α} {x : Nat → Stimulus α} {n : Nat}
    {test : Command α → List PortId → Simulator α → Simulator α → Bool}
    (h : Sample.pauseRuns duration deceleration period x n test = true) :
    ∃ c p net s₀ s, Sample.pause duration deceleration { folding := true } = .ok c p ∧
      Sample.compilePause p c = .ok net ∧ Simulator.start net.fragment period = .ok s₀ ∧
      Simulator.drive x n s₀ = .ok s ∧ test c (Sample.requests p c) s₀ s = true := by
  unfold Sample.pauseRuns at h
  split at h
  · cases h
  · next c p hpause =>
    split at h
    · cases h
    · next net hnet =>
      split at h
      · cases h
      · next s₀ hstart =>
        split at h
        · cases h
        · next s hdrive => exact ⟨c, p, net, s₀, s, hpause, hnet, hstart, hdrive, h⟩

/-- Two cycles of one second stop a command that slows down for two. -/
theorem Compiler.pause_slows_down : ∃ c p net session s₀ s q,
    Sample.pause (0 : Fraction) (1 + 1) { folding := true } = .ok c p ∧
    Sample.compilePause p c = .ok net ∧
    Session.compile ⟨p, .standard, {}, .standard, .offline⟩ { target := .command c } .empty =
      .ok net session ∧
    Simulator.start net.fragment 1 = .ok s₀ ∧ Simulator.drive (Sample.brief 2) 3 s₀ = .ok s ∧
    session.lowered.get? c.scale = some q ∧ s.value? q = some (.double 0) := by
  have hruns : Sample.pauseRuns (0 : Fraction) (1 + 1) 1 (Sample.brief 2) 3
      (fun c requests s₀ _ => decide (c.deceleration = 1 + 1) &&
        (Simulator.requestedIn (Sample.brief 2) s₀ requests 0 &&
          Simulator.requestedIn (Sample.brief 2) s₀ requests 1)) = true := by decide +kernel
  obtain ⟨c, p, net, s₀, s, hpause, hnet, hstart, hdrive, htest⟩ := Sample.pauseRuns_eq_true hruns
  simp only [Bool.and_eq_true, decide_eq_true_eq] at htest
  obtain ⟨hdeceleration, hfirst, hsecond⟩ := htest
  have hempty : ({ folding := true } : Pool Fraction).Reachable := ⟨true, [], rfl⟩
  have hp : p.Reachable := by
    have hfollows := Command.new_composed "go" .global (Action.wait "pause" (0 : Fraction))
      (some (1 + 1)) { folding := true }
    rw [show Command.new _ _ _ _ _ = _ from hpause] at hfollows
    exact hempty.follows hfollows
  have hbuilt : c.Built p := .new hempty (.wait _ _) hpause
  obtain ⟨session, q, action, handled, before, -, hsession, hq, hrequests, -, -, hslows⟩ :=
    Compiler.command_slows_down Fraction.exact hp hbuilt rfl hnet
  have hcancels : Sample.requests p c = handled.cancels := by
    rw [Sample.requests, hrequests]
  rw [hcancels] at hfirst hsecond
  obtain ⟨v, hv, -, hzero⟩ := hslows _ _ 2 _ _ hstart hdrive
  have hstopped : v = 0 := by
    refine hzero 0 (Nat.zero_le 2) ?_ ?_
    · intro i _ hi
      match i, hi with
      | 0, _ => exact hfirst
      | 1, _ => exact hsecond
    · rw [hdeceleration]
      decide +kernel
  subst hstopped
  exact ⟨c, p, net, session, s₀, s, q, hpause, hnet, hsession, hstart, hdrive, hq, hv⟩

/-- **A pulse slows a command down once.**  The command slows down for half a
second, and cancellation is requested in the first cycle only.  Six cycles
later, which are longer than that, the override is still what the first step
has left. -/
theorem Compiler.pulse_slows_once : ∃ c p net s₀ s,
    Sample.pause (100 : Float) 0.5 { folding := true } = .ok c p ∧
    Sample.compilePause p c = .ok net ∧ Simulator.start net.fragment 0.125 = .ok s₀ ∧
    Simulator.requestedIn (Sample.brief 1) s₀ (Sample.requests p c) 0 = true ∧
    Simulator.drive (Sample.brief 1) 7 s₀ = .ok s ∧ Scalar.lt 0.5 (6 * 0.125 : Float) = true ∧
    s.output? "go.override" = some (.double 0.75) := by
  have hruns : Sample.pauseRuns (100 : Float) 0.5 0.125 (Sample.brief 1) 7
      (fun _ requests s₀ s => Simulator.requestedIn (Sample.brief 1) s₀ requests 0 &&
        s.output? "go.override" == some (.double 0.75)) = true := by decide +kernel
  obtain ⟨c, p, net, s₀, s, hpause, hnet, hstart, hdrive, htest⟩ := Sample.pauseRuns_eq_true hruns
  obtain ⟨hfirst, hlast⟩ := Bool.and_eq_true_iff.mp htest
  exact ⟨c, p, net, s₀, s, hpause, hnet, hstart, hfirst, hdrive, by decide +kernel,
    eq_of_beq hlast⟩

end SignalNet
