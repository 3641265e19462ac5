import SignalNet.Proofs.Compile.Cancellation
import SignalNet.Proofs.Motion.Scopes

/-!
# What a command lets into its network

A command is made in a scope, and making it checks that the scope encloses the
scope of its action.  Expressions come in through four more doors: conditions
of handlers, the override, values that are kept, and observed expressions.
None of these is checked, so a network may hold expressions that the scope of
its command does not enclose (`Compiler.handler_escapes_scope`).

These doors are the only ones: `Compiler.command_scopes` says that every
expression in the network is enclosed by the scope of the command, or is
reached from an expression that came in through one of them and is not.
The proof follows what a session lowers (`Session.tracing`).
-/

namespace SignalNet

open Computing Lowering

variable {α : Type} [Scalar α]

/-! ### What a session lowers -/

namespace Session

/-- The expressions entered and the sources collected stay the same. -/
def SameBooks (s s' : Session α) : Prop :=
  s'.lowered = s.lowered ∧ s'.resolvers = s.resolvers

omit [Scalar α] in
theorem Opens.sameBooks {s s' : Session α} (h : s.Opens s') : SameBooks s s' :=
  ⟨h.lowered, h.resolvers⟩

omit [Scalar α] in
theorem sameBooks_wire {β : Type} {call : Wiring α β} {b : β} {s s' : Session α}
    (hrun : wire call s = .ok b s') : SameBooks s s' :=
  (opens_wire hrun).sameBooks

/-- The discipline that traces what is lowered: nothing but expressions with a
property is entered, or is a source for a placeholder. -/
def tracing (P : ExprId → Prop) : Discipline α where
  Holds s := (∀ {id q}, s.lowered.get? id = some q → P id) ∧
    ∀ r ∈ s.resolvers, ∀ producer, r.source = .expression producer → P producer
  Grows _ _ := True
  Port _ _ := True
  Root := P
  Source _ r := ∀ producer, r.source = .expression producer → P producer
  Error _ := True

variable {program : Program α} {P : ExprId → Prop}

omit [Scalar α] in
theorem tracing_sameBooks {s s' : Session α} (hs : (tracing P).Holds s) (h : SameBooks s s') :
    (tracing P).Holds s' := by
  obtain ⟨hentries, hsources⟩ := hs
  obtain ⟨hlowered, hresolvers⟩ := h
  refine ⟨?_, ?_⟩
  · intro id q hq
    rw [hlowered] at hq
    exact hentries hq
  · rw [hresolvers]
    exact hsources

omit [Scalar α] in
/-- A computation that leaves the books alone is traced. -/
theorem safe_of_sameBooks {β : Type} {x : Lowering α β} (hx : Leaves SameBooks x) (s : Session α)
    {post : β → Session α → Prop} (hpost : ∀ b s', post b s') : (tracing P).Safe x s post :=
  fun hs => ⟨fun b s' hrun => ⟨tracing_sameBooks hs (hx s s' b hrun), trivial, hpost b s'⟩,
    fun _ _ _ => trivial⟩

/-- **Lowering an expression** enters the expression and what it reaches. -/
theorem tracing_lower (hprogram : program.Regular)
    (hclosed : ∀ {id : ExprId} {n : Node α}, P id → program.pool.get? id = some n →
      ∀ d ∈ n.dependencies, P d) {s : Session α} {id : ExprId} (hid : P id) :
    (tracing P).Safe (lower program id) s fun _ _ => True := by
  intro hs
  refine ⟨?_, fun _ _ _ => trivial⟩
  intro q s' hrun
  have hout : Outcome (tracing P).Holds id s q s' := by
    refine lowerWithin_induct hprogram.pool (.of_rules hprogram.rules) hclosed ?_ hid
      hs hrun
    rintro j n inputs s₁ s₂ r hj hn - ⟨hentries, hsources⟩ - hby -
    obtain ⟨hlowered, hresolvers⟩ := (hby.opens hn).sameBooks
    refine ⟨?_, ?_⟩
    · intro k port hk
      rcases Table.get?_insert_cases hk with ⟨rfl, -⟩ | hold
      · exact hj
      · rw [hlowered] at hold
        exact hentries hold
    · intro r hr
      have hr' : r ∈ s₂.resolvers := hr
      rw [hresolvers] at hr'
      exact hsources r hr'
  exact ⟨hout.holds, trivial, trivial⟩

theorem tracing_lawful (hprogram : program.Regular)
    (hclosed : ∀ {id : ExprId} {n : Node α}, P id → program.pool.get? id = some n →
      ∀ d ∈ n.dependencies, P d) : (tracing P).Lawful program where
  refl _ := trivial
  trans _ _ := trivial
  mono _ _ := trivial
  error _ := trivial
  signals _ := fun _ _ _ => trivial
  add {s} inputs primitive kind _ :=
    safe_of_sameBooks (fun _ _ _ hrun => (stepwise_opens.add _ _ _ _ _ _ hrun).sameBooks) s
      fun _ _ => trivial
  constPort {s} v :=
    safe_of_sameBooks (fun _ _ _ hrun => (stepwise_opens.constPort _ _ _ _ hrun).sameBooks) s
      fun _ _ => trivial
  lower hid := tracing_lower hprogram hclosed hid
  addResolver := by
    rintro s r hr ⟨hentries, hsources⟩
    refine ⟨?_, fun _ _ _ => trivial⟩
    intro u s' hrun
    obtain rfl := modify_eq_ok.mp hrun
    refine ⟨⟨hentries, ?_⟩, trivial, trivial⟩
    intro r' hr'
    rcases List.mem_append.mp hr' with hold | hnew
    · exact hsources r' hold
    · exact List.mem_singleton.mp hnew ▸ hr
  register {s} q signal _ :=
    safe_of_sameBooks (fun _ _ _ hrun => sameBooks_wire hrun) s fun _ _ => trivial
  expose {s} name q :=
    safe_of_sameBooks (fun _ _ _ hrun => sameBooks_wire hrun) s fun _ _ => trivial
  storePersisted := by
    intro s handle hroot hs
    refine ⟨?_, fun _ _ _ => trivial⟩
    intro u s' hrun
    obtain ⟨slot, source, value, s₁, kind, hsource, hlower, -, -, -, rfl⟩ :=
      storePersisted_eq_ok hrun
    obtain ⟨hs₁, -, -⟩ := (tracing_lower hprogram hclosed (hroot source hsource) hs).1 _ _ hlower
    -- The sink belongs to no expression.
    exact ⟨tracing_sameBooks hs₁ ⟨rfl, rfl⟩, trivial, trivial⟩

/-! ### The end of a session -/

omit [Scalar α] in
theorem sameBooks_resolve {number : Nat} {port : PortId} {s s' : Session α} {u : Unit}
    (hrun : resolve number port s = .ok u s') : SameBooks s s' := by
  obtain ⟨p, -, -, -, rfl⟩ := resolve_eq_ok hrun
  exact ⟨rfl, rfl⟩

/-- Resolving placeholders lowers sources that have been collected. -/
theorem tracing_resolveEach (hprogram : program.Regular)
    (hclosed : ∀ {id : ExprId} {n : Node α}, P id → program.pool.get? id = some n →
      ∀ d ∈ n.dependencies, P d) {resolvers : List (Resolver α)}
    (hsources : ∀ r ∈ resolvers, ∀ producer, r.source = .expression producer → P producer)
    {waiting : List OpenPlaceholder} {s s' : Session α} (hs : (tracing P).Holds s) {u : Unit}
    (hrun : resolveEach program resolvers waiting s = .ok u s') : (tracing P).Holds s' := by
  induction waiting generalizing s with
  | nil =>
      obtain ⟨-, rfl⟩ := pure_eq_ok.mp hrun
      exact hs
  | cons p rest ih =>
      obtain ⟨_, s₁, hfirst, hrest⟩ := bind_eq_ok.mp hrun
      refine ih ?_ hrest
      obtain ⟨r, port, s₂, hfind, hport, hresolve⟩ := resolveOpen_eq_ok hfirst
      refine tracing_sameBooks ?_ (sameBooks_resolve hresolve)
      have hr := hsources r (List.mem_of_find?_eq_some hfind)
      cases hsource : r.source with
      | expression producer =>
          rw [hsource] at hport
          exact ((tracing_lower hprogram hclosed (hr producer hsource) hs).1 _ _ hport).1
      | constant v =>
          rw [hsource] at hport
          exact tracing_sameBooks hs (stepwise_opens.constPort _ _ _ _ hport).sameBooks
      | port q =>
          rw [hsource] at hport
          obtain ⟨-, rfl⟩ := pure_eq_ok.mp hport
          exact hs

theorem tracing_finish (hprogram : program.Regular)
    (hclosed : ∀ {id : ExprId} {n : Node α}, P id → program.pool.get? id = some n →
      ∀ d ∈ n.dependencies, P d) (s : Session α) :
    (tracing P).Safe (finish program) s fun _ _ => True := by
  intro hs
  refine ⟨?_, fun _ _ _ => trivial⟩
  intro f s' hrun
  refine ⟨resolveWithin_induct ?_ hs (finish_eq_ok hrun).1, trivial, trivial⟩
  exact fun hs hround => tracing_resolveEach hprogram hclosed hs.2 hs hround

end Session

/-! ### Commands -/

/-- The expressions that come into the network of a command unchecked. -/
def Request.unchecked (p : Pool α) (c : Command α) (request : Request α) : List ExprId :=
  c.effective :: c.conditions ++ c.kept p ++ request.observed

/-- **What a command lets into its network.**  Let a command that was built by
calls be compiled with the rules of the library.  Every expression that is
lowered has a scope that the scope of the command encloses, or it is reached
from the override, from a condition of a handler, from a value that is kept, or
from an observed expression whose own scope the command does not enclose. -/
theorem Compiler.command_scopes {settings : Settings α} {pool : Pool α} (hpool : pool.Reachable)
    {host : Host α} {c : Command α} (hc : c.Built pool) {request : Request α}
    (htarget : request.target = .command c) {net : CompiledNet α}
    (hnet : Compiler.compile ⟨.standard, settings⟩ pool host request = .ok net) :
    ∃ session, Session.compile ⟨pool, .standard, request.parameters, settings, host⟩ request
        .empty = .ok net session ∧
      ∀ id q, session.lowered.get? id = some q → pool.Enclosed c.scope id ∨
        ∃ root ∈ request.unchecked pool c, pool.Reaches root id ∧ ¬ pool.Enclosed c.scope root := by
  obtain ⟨session, hsession⟩ := compile_eq_ok hnet
  refine ⟨session, hsession, ?_⟩
  let program : Program α := ⟨pool, .standard, request.parameters, settings, host⟩
  have hprogram : program.Regular := ⟨hpool.wellFormed, rfl⟩
  -- The expressions that the request asks for, and what they reach.
  let roots := request.expressions pool
  let P : ExprId → Prop := fun id => ∃ root ∈ roots, pool.Reaches root id
  have hclosed : ∀ {id : ExprId} {n : Node α}, P id → program.pool.get? id = some n →
      ∀ d ∈ n.dependencies, P d := by
    rintro id n ⟨root, hroot, hreach⟩ hn d hd
    exact ⟨root, hroot, hreach.operand hn hd⟩
  have hP : ∀ id ∈ roots, P id := fun id hid => ⟨id, hid, .root⟩
  have hroots : roots = c.expressions pool ++ request.observed := by
    simp only [roots, Request.expressions, Target.expressions, htarget]
  have hcommand : ∀ {id}, id ∈ c.expressions pool → P id := by
    intro id hid
    refine hP id ?_
    rw [hroots]
    exact List.mem_append_left _ hid
  have hsources : Discipline.RequestSources (Session.tracing P) request.target := by
    rw [htarget]
    refine ⟨?_, ?_, ?_, ?_⟩
    · rintro channel position scale next distance hmotion s producer ⟨⟩
      refine hcommand ?_
      simp [Command.expressions, Action.expressions, hmotion, Motion.expressions]
    · rintro s producer ⟨⟩
      exact hcommand (by simp [Command.expressions])
    · rintro s producer ⟨⟩
      exact hcommand (by simp [Command.expressions])
    · rintro s q - producer ⟨⟩
  have hlawful : (Session.tracing P).Lawful program := Session.tracing_lawful hprogram hclosed
  have hempty : (Session.tracing P).Holds (Session.empty : Session α) :=
    ⟨fun hq => by simp [Session.empty, Table.get?] at hq, by simp [Session.empty]⟩
  have hsafe : (Session.tracing P).Safe (Session.compile program request) .empty fun _ _ => True :=
    hlawful.compile hP hsources fun _ _ _ t' _ _ => Session.tracing_finish hprogram hclosed t'
  obtain ⟨⟨hentries, -⟩, -, -⟩ := (hsafe hempty).1 _ _ hsession
  intro id q hq
  obtain ⟨root, hroot, hreach⟩ := hentries hq
  by_cases hencloses : pool.Enclosed c.scope root
  · exact Or.inl (hencloses.reaches hpool.wellFormed hreach)
  · refine Or.inr ⟨root, ?_, hreach, hencloses⟩
    -- What the command was made with is enclosed.
    have hown : root ∉ c.own := fun hmem => hencloses (hc.enclosed root hmem)
    rw [hroots] at hroot
    simp only [Command.expressions, Command.own, List.mem_append,
      List.mem_cons, List.not_mem_nil, or_false, not_or] at hroot hown
    simp only [Request.unchecked, List.cons_append, List.mem_cons, List.mem_append]
    tauto

/-- A command of one scope that is cancelled by an input of another. -/
def Sample.watched (own other : Scope) : Building Float (ExprId × Command Float) := do
  let stop ← Pool.input "stop" .boolean other
  let c ← Command.new "go" own (Action.wait "pause" 1) (some 0.5)
  return (stop, c.on (.condition stop) .cancel)

theorem Sample.watched_built {own other : Scope} {stop : ExprId} {c : Command Float}
    {p : Pool Float} (h : Sample.watched own other { folding := true } = .ok (stop, c) p) :
    p.Reachable ∧ c.Built p := by
  have hempty : ({ folding := true } : Pool Float).Reachable := ⟨true, [], rfl⟩
  obtain ⟨stop', p₁, hinput, hrest⟩ := bind_eq_ok.mp h
  obtain ⟨c', p₂, hnew, hrest⟩ := bind_eq_ok.mp hrest
  obtain ⟨hpair, rfl⟩ := pure_eq_ok.mp hrest
  obtain ⟨rfl, rfl⟩ := Prod.mk.inj hpair
  have hp₁ : p₁.Reachable := by
    have hfollows := Pool.composed_run (.input "stop" .boolean other) ({ folding := true } : Pool Float)
    rw [show (Pool.Call.input "stop" .boolean other).run _ = _ from hinput] at hfollows
    exact hempty.follows hfollows
  have hp₂ : p₂.Reachable := by
    have hfollows := Command.new_composed "go" own (Action.wait "pause" 1) (some 0.5) p₁
    rw [hnew] at hfollows
    exact hp₁.follows hfollows
  exact ⟨hp₂, .on (.new hp₁ (.wait _ _) hnew) _ _⟩

/-- Compile the command, and test what the session has lowered. -/
def Sample.watchedRuns (own other : Scope)
    (test : Pool Float → ExprId → Command Float → Session Float → Bool) : Bool :=
  match Sample.watched own other { folding := true } with
  | .error _ _ => false
  | .ok (stop, c) p =>
    match Sample.compilePause p c, Session.compile ⟨p, .standard, {}, .standard, .offline⟩
        { target := .command c } .empty with
    | .ok _, .ok _ session => test p stop c session
    | _, _ => false

theorem Sample.watchedRuns_eq_true {own other : Scope}
    {test : Pool Float → ExprId → Command Float → Session Float → Bool}
    (h : Sample.watchedRuns own other test = true) :
    ∃ stop c p net, Sample.watched own other { folding := true } = .ok (stop, c) p ∧
      Sample.compilePause p c = .ok net ∧
      ∀ session, Session.compile ⟨p, .standard, {}, .standard, .offline⟩ { target := .command c }
        .empty = .ok net session → test p stop c session = true := by
  unfold Sample.watchedRuns at h
  split at h
  · cases h
  · next stop c p hwatched =>
    split at h
    · next net _ session hnet hsession =>
      refine ⟨stop, c, p, net, hwatched, hnet, ?_⟩
      intro session' hsession'
      rw [hsession] at hsession'
      cases hsession'
      exact h
    · cases h

/-- Cancelling a command by an input of its own scope keeps all that is lowered
in the scope. -/
theorem Compiler.own_handler_scopes : ∃ stop c p net session,
    Sample.watched (.command 1 1) (.command 1 1) { folding := true } = .ok (stop, c) p ∧
    Sample.compilePause p c = .ok net ∧
    Session.compile ⟨p, .standard, {}, .standard, .offline⟩ { target := .command c } .empty =
      .ok net session ∧
    ∀ id q, session.lowered.get? id = some q → p.Enclosed (.command 1 1) id := by
  have hruns : Sample.watchedRuns (.command 1 1) (.command 1 1)
      (fun p _ c _ => decide (c.scope = .command 1 1) &&
        (({ target := .command c } : Request Float).unchecked p c).all fun root =>
          match p.scopeOf root with
          | .ok inner => Scope.encloses (.command 1 1) inner
          | .error _ => false) = true := by decide +kernel
  obtain ⟨stop, c, p, net, hwatched, hnet, htest⟩ := Sample.watchedRuns_eq_true hruns
  obtain ⟨hp, hc⟩ := Sample.watched_built hwatched
  obtain ⟨session, hsession, hscopes⟩ := Compiler.command_scopes hp hc rfl hnet
  have htest := htest session hsession
  simp only [Bool.and_eq_true, decide_eq_true_eq, List.all_eq_true] at htest
  obtain ⟨hscope, hroots⟩ := htest
  rw [hscope] at hscopes
  refine ⟨stop, c, p, net, session, hwatched, hnet, hsession, ?_⟩
  intro id q hq
  rcases hscopes id q hq with henclosed | ⟨root, hroot, -, hescapes⟩
  · exact henclosed
  · have hinner := hroots root hroot
    split at hinner
    · next inner hroot => exact absurd ⟨inner, hroot, hinner⟩ hescapes
    · cases hinner

/-- **A handler escapes the scope of its command.**  The condition belongs to
another command of the same context, and is lowered all the same. -/
theorem Compiler.handler_escapes_scope : ∃ stop c p net,
    Sample.watched (.command 1 1) (.command 1 2) { folding := true } = .ok (stop, c) p ∧
    c.Built p ∧ c.scope = .command 1 1 ∧ Sample.compilePause p c = .ok net ∧
    ∃ session q, Session.compile ⟨p, .standard, {}, .standard, .offline⟩ { target := .command c }
      .empty = .ok net session ∧ session.lowered.get? stop = some q ∧
      ¬ p.Enclosed c.scope stop := by
  have hruns : Sample.watchedRuns (.command 1 1) (.command 1 2)
      (fun p stop c session => decide (c.scope = .command 1 1) &&
        ((session.lowered.get? stop).isSome &&
          match p.scopeOf stop with
          | .ok inner => !Scope.encloses (.command 1 1) inner
          | .error _ => false)) = true := by decide +kernel
  obtain ⟨stop, c, p, net, hwatched, hnet, htest⟩ := Sample.watchedRuns_eq_true hruns
  obtain ⟨-, hc⟩ := Sample.watched_built hwatched
  obtain ⟨session, hsession⟩ := Compiler.compile_eq_ok hnet
  have htest := htest session hsession
  simp only [Bool.and_eq_true, decide_eq_true_eq, Option.isSome_iff_exists] at htest
  obtain ⟨hscope, ⟨q, hq⟩, hinner⟩ := htest
  refine ⟨stop, c, p, net, hwatched, hc, hscope, hnet, session, q, hsession, hq, ?_⟩
  rintro ⟨inner, hstop, hencloses⟩
  rw [hscope] at hencloses
  simp only [hstop, hencloses, Bool.not_true, Bool.false_eq_true] at hinner

end SignalNet
