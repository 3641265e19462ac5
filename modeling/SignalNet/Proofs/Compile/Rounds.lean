import SignalNet.Proofs.Compile.Failures
import SignalNet.Proofs.Compile.Loops

/-!
# Rounds of resolving

A session ends round by round: the placeholders that wait are resolved one after
the other, and what is opened on the way waits for the next round.  A bound on
the rounds makes this a definition; `Session.Rounds` says what they lead to
without one.

There are two ingredients.

1.  Placeholders are told apart by their expressions and by their numbers, so no
    more of them are opened than the pool has
    (`Session.Orderly.placeholders_length`).
2.  Resolving a placeholder that waits resolves one more placeholder and leaves
    the others as they are.  `Session.Resolving` is an invariant for which this
    is so.

Then the bound is never reached (`Session.Resolving.rounds`), and what the
rounds lead to is known from what one step leads to
(`Session.Resolving.result`).
-/

namespace SignalNet

open Computing Lowering

/-- The number of a placeholder. -/
def Form.placeholderNumber? {α : Type} : Form α → Option Nat
  | .placeholder number _ => some number
  | _ => none

/-- How many placeholders a pool has. -/
def Pool.placeholderCount {α : Type} (p : Pool α) : Nat :=
  p.nodes.countP (·.form.isPlaceholder)

theorem Pool.placeholderCount_le {α : Type} (p : Pool α) : p.placeholderCount ≤ p.size :=
  List.countP_le_length

namespace Session

variable {α : Type} [Scalar α] {program : Program α} {s s' : Session α}

/-! ### Placeholders are told apart -/

omit [Scalar α] in
theorem countP_markResolved {number : Nat} {p : OpenPlaceholder}
    {placeholders : List OpenPlaceholder}
    (hfind : (placeholders.find? fun p => decide (p.number = number)) = some p)
    (hwaits : p.resolved = false) :
    (markResolved number placeholders).countP (·.resolved) =
      placeholders.countP (·.resolved) + 1 := by
  induction placeholders with
  | nil => cases hfind
  | cons first rest ih =>
      rw [List.find?_cons] at hfind
      rw [markResolved]
      by_cases hnumber : first.number = number
      · simp only [hnumber, decide_true, Option.some.injEq] at hfind
        subst hfind
        rw [if_pos hnumber]
        simp [hwaits]
      · simp only [hnumber, decide_false] at hfind
        rw [if_neg hnumber, List.countP_cons, List.countP_cons, ih hfind]
        omega

omit [Scalar α] in
/-- The other placeholders stay as they are. -/
theorem mem_markResolved_of_ne {number : Nat} {placeholders : List OpenPlaceholder}
    {o : OpenPlaceholder} (ho : o ∈ placeholders) (hne : o.number ≠ number) :
    o ∈ markResolved number placeholders := by
  induction placeholders with
  | nil => cases ho
  | cons first rest ih =>
      rw [markResolved]
      by_cases hnumber : first.number = number
      · rw [if_pos hnumber]
        rcases List.mem_cons.mp ho with rfl | ho
        · exact absurd hnumber hne
        · exact List.mem_cons_of_mem _ ho
      · rw [if_neg hnumber]
        rcases List.mem_cons.mp ho with rfl | ho
        · exact List.mem_cons_self
        · exact List.mem_cons_of_mem _ (ih ho)

omit [Scalar α] in
/-- An expression has one block, so it is opened once. -/
theorem Orderly.eq_of_expr (h : Orderly program s) {o o' : OpenPlaceholder}
    (ho : o ∈ s.placeholders) (ho' : o' ∈ s.placeholders) (hexpr : o.expr = o'.expr) : o = o' := by
  obtain ⟨n, q, -, -, hq, b, blk, hb, -, hinputs, -, hport⟩ := h.opened o ho
  obtain ⟨n', q', -, -, hq', b', blk', hb', -, hinputs', -, hport'⟩ := h.opened o' ho'
  rw [hexpr, hq'] at hq
  cases hq
  obtain rfl : b = b' := congrArg Port.block (Option.some.inj (hport.symm.trans hport'))
  rw [hb'] at hb
  cases hb
  rw [hinputs'] at hinputs
  exact List.inj_on_of_nodup_map h.inputs ho ho' (List.cons.inj hinputs).1.symm

theorem Orderly.eq_of_number (hp : program.pool.WellFormed) (h : Orderly program s)
    {o o' : OpenPlaceholder} (ho : o ∈ s.placeholders) (ho' : o' ∈ s.placeholders)
    (hnumber : o.number = o'.number) : o = o' := by
  obtain ⟨n, q, hn, hform, -⟩ := h.opened o ho
  obtain ⟨n', q', hn', hform', -⟩ := h.opened o' ho'
  rw [hnumber] at hform
  exact h.eq_of_expr ho ho' (hp.numbered hn hn' hform hform')

/-- **No more placeholders are opened than the pool has.** -/
theorem Orderly.placeholders_length (hp : program.pool.WellFormed) (h : Orderly program s) :
    s.placeholders.length ≤ program.pool.placeholderCount := by
  have hnodup : (s.placeholders.map (·.number)).Nodup :=
    h.inputs.of_map.map_on fun o ho o' ho' => h.eq_of_number hp ho ho'
  have hsub : (s.placeholders.map (·.number)).Subperm
      (program.pool.nodes.filterMap (·.form.placeholderNumber?)) := by
    refine hnodup.subperm fun number hnumber => ?_
    obtain ⟨o, ho, rfl⟩ := List.mem_map.mp hnumber
    obtain ⟨n, q, hn, hform, -⟩ := h.opened o ho
    refine List.mem_filterMap.mpr ⟨n, List.mem_of_getElem? hn, ?_⟩
    rw [hform]
    rfl
  have hcount : ∀ n : Node α, n.form.placeholderNumber?.isSome = n.form.isPlaceholder := by
    intro n
    cases n.form <;> rfl
  have hlength := hsub.length_le
  rw [List.length_map, List.length_filterMap_eq_countP] at hlength
  simp only [hcount] at hlength
  exact hlength

theorem Orderly.find?_number (hp : program.pool.WellFormed) (h : Orderly program s)
    {p : OpenPlaceholder} (hmem : p ∈ s.placeholders) :
    (s.placeholders.find? fun o => decide (o.number = p.number)) = some p := by
  cases hfind : s.placeholders.find? fun o => decide (o.number = p.number) with
  | none => exact absurd (decide_eq_true rfl) (List.find?_eq_none.mp hfind p hmem)
  | some p' =>
      obtain rfl : p' = p := h.eq_of_number hp (List.mem_of_find?_eq_some hfind) hmem
        (by simpa using List.find?_some hfind)
      rfl

/-! ### Resolving a placeholder that waits -/

omit [Scalar α] in
/-- One more placeholder is resolved, and the others are as they were. -/
structure Resolves (p : OpenPlaceholder) (s s' : Session α) : Prop where
  resolvers : s'.resolvers = s.resolvers
  others : ∀ o ∈ s.placeholders, o ≠ p → o ∈ s'.placeholders
  count : s'.placeholders.countP (·.resolved) = s.placeholders.countP (·.resolved) + 1

omit [Scalar α] in
/-- What has been opened before waits. -/
theorem Resolves.after {p : OpenPlaceholder} {s₁ : Session α} (hawaits : s.Awaits s₁)
    (h : Resolves p s₁ s') : Resolves p s s' where
  resolvers := h.resolvers.trans hawaits.resolvers
  others o ho := h.others o (hawaits.mem ho)
  count := by
    obtain ⟨more, hmore, hwaits⟩ := hawaits.placeholders
    have hnone : more.countP (·.resolved) = 0 :=
      List.countP_eq_zero.mpr fun o ho => by simp [hwaits o ho]
    rw [h.count, hmore, List.countP_append, hnone, Nat.add_zero]

/-- A placeholder that waits can be resolved, unless its port does not fit. -/
theorem Orderly.resolve_waiting (hp : program.pool.WellFormed) (h : Orderly program s)
    {p : OpenPlaceholder} (hmem : p ∈ s.placeholders) (hwaits : p.resolved = false)
    (port : PortId) :
    (∀ u s', Session.resolve p.number port s = .ok u s' → Resolves p s s') ∧
      ∀ e s', Session.resolve p.number port s = .error e s' → e.Local := by
  have hfind := h.find?_number hp hmem
  refine ⟨?_, ?_⟩
  · intro u s' hrun
    obtain ⟨p', hfind', -, -, rfl⟩ := resolve_eq_ok hrun
    rw [hfind] at hfind'
    cases hfind'
    refine ⟨rfl, fun o ho hne => mem_markResolved_of_ne ho fun hnumber => hne ?_,
      countP_markResolved hfind hwaits⟩
    exact h.eq_of_number hp ho hmem hnumber
  · intro e s' hrun
    unfold Session.resolve at hrun
    rw [get_bind] at hrun
    simp only [hfind, hwaits, Bool.false_eq_true, if_false] at hrun
    exact fails_bind (fails_modify _)
      (fun _ => fails_wire (Fragment.connect_fails _ _)) _ _ _ hrun

/-- An invariant under which the placeholders that wait can be resolved one by
one, and the errors that may come of it, with the sessions that they leave. -/
structure Resolving (program : Program α) (I : Session α → Prop)
    (E : CompileError α → Session α → Prop) : Prop where
  pool : program.pool.WellFormed
  orderly : ∀ {s}, I s → Orderly program s
  /-- The port of a source is found. -/
  source : ∀ {s s' : Session α} {r : Resolver α} {q : PortId}, I s → r ∈ s.resolvers →
    sourcePort program r.source s = .ok q s' → I s' ∧ s.Awaits s' ∧ s'.SourceAt q r.source
  /-- A placeholder is wired to its first source. -/
  wire : ∀ {s s' : Session α} {p : OpenPlaceholder} {r : Resolver α} {q : PortId} {u : Unit}, I s →
    p ∈ s.placeholders → s.resolver? p.expr = some r → s.SourceAt q r.source →
    resolve p.number q s = .ok u s' → I s'
  missing : ∀ {s : Session α} {p : OpenPlaceholder}, I s → p ∈ s.placeholders →
    p.resolved = false → s.resolver? p.expr = none → E (.unresolvedPlaceholder p.label) s
  stops : ∀ {source : Source α} {s s' : Session α} {e : CompileError α},
    sourcePort program source s = .error e s' → E e s'
  misfit : ∀ {e : CompileError α}, e.Local → ∀ s, E e s

namespace Resolving

variable {I : Session α → Prop} {E : CompileError α → Session α → Prop}

/-- **The step**: resolving one placeholder that waits. -/
theorem resolveOpen (h : Resolving program I E) (hs : I s) {p : OpenPlaceholder}
    (hmem : p ∈ s.placeholders) (hwaits : p.resolved = false) :
    (∀ u s', Session.resolveOpen program s.resolvers p s = .ok u s' → I s' ∧ Resolves p s s') ∧
      ∀ e s', Session.resolveOpen program s.resolvers p s = .error e s' → E e s' := by
  cases hfind : s.resolver? p.expr with
  | none =>
      have hopen : Session.resolveOpen program s.resolvers p =
          throw (.unresolvedPlaceholder p.label) := by
        unfold Session.resolveOpen
        rw [show (s.resolvers.find? fun r => r.targets.contains p.expr) = none from hfind]
      rw [hopen]
      refine ⟨fun u s' hrun => absurd hrun throw_ne_ok, ?_⟩
      rintro e s' ⟨⟩
      exact h.missing hs hmem hwaits hfind
  | some r =>
      have hopen : Session.resolveOpen program s.resolvers p =
          sourcePort program r.source >>= Session.resolve p.number := by
        unfold Session.resolveOpen
        rw [show (s.resolvers.find? fun r => r.targets.contains p.expr) = some r from hfind]
      have hr : r ∈ s.resolvers := List.mem_of_find?_eq_some hfind
      rw [hopen]
      refine ⟨?_, ?_⟩
      · intro u s' hrun
        obtain ⟨q, s₁, hsource, hresolve⟩ := bind_eq_ok.mp hrun
        obtain ⟨h₁, hawaits, hat⟩ := h.source hs hr hsource
        have hmem₁ : p ∈ s₁.placeholders := hawaits.mem hmem
        have hfirst : s₁.resolver? p.expr = some r := by
          rw [Session.resolver?, hawaits.resolvers]
          exact hfind
        have hresolves := ((h.orderly h₁).resolve_waiting h.pool hmem₁ hwaits q).1 u s' hresolve
        exact ⟨h.wire h₁ hmem₁ hfirst hat hresolve, hresolves.after hawaits⟩
      · intro e s' hrun
        rcases bind_eq_error.mp hrun with hsource | ⟨q, s₁, hsource, hresolve⟩
        · exact h.stops hsource
        · obtain ⟨h₁, hawaits, -⟩ := h.source hs hr hsource
          exact h.misfit (((h.orderly h₁).resolve_waiting h.pool (hawaits.mem hmem) hwaits q).2
            e s' hresolve) s'

/-- Resolving placeholders one after the other. -/
theorem resolveEach (h : Resolving program I E) {waiting : List OpenPlaceholder}
    (hnodup : waiting.Nodup) (hs : I s)
    (hwaiting : ∀ p ∈ waiting, p ∈ s.placeholders ∧ p.resolved = false) :
    (∀ u s', Session.resolveEach program s.resolvers waiting s = .ok u s' → I s' ∧
        s'.placeholders.countP (·.resolved) =
          s.placeholders.countP (·.resolved) + waiting.length) ∧
      ∀ e s', Session.resolveEach program s.resolvers waiting s = .error e s' → E e s' := by
  induction waiting generalizing s with
  | nil =>
      refine ⟨?_, fun e s' hrun => by cases hrun⟩
      intro u s' hrun
      obtain ⟨-, rfl⟩ := pure_eq_ok.mp hrun
      exact ⟨hs, rfl⟩
  | cons p rest ih =>
      rw [List.nodup_cons] at hnodup
      obtain ⟨hmem, hwaits⟩ := hwaiting p List.mem_cons_self
      obtain ⟨hfirst, hstops⟩ := h.resolveOpen hs hmem hwaits
      -- What is left still waits after the first one has been resolved.
      have hrest : ∀ {s₁ : Session α}, Resolves p s s₁ →
          ∀ o ∈ rest, o ∈ s₁.placeholders ∧ o.resolved = false := by
        intro s₁ hresolves o ho
        obtain ⟨hold, hopen⟩ := hwaiting o (List.mem_cons_of_mem _ ho)
        exact ⟨hresolves.others o hold fun heq => hnodup.1 (heq ▸ ho), hopen⟩
      refine ⟨?_, ?_⟩
      · intro u s' hrun
        obtain ⟨_, s₁, hopen, hafter⟩ := bind_eq_ok.mp hrun
        obtain ⟨h₁, hresolves⟩ := hfirst _ s₁ hopen
        rw [← hresolves.resolvers] at hafter
        obtain ⟨h', hcount⟩ := (ih hnodup.2 h₁ (hrest hresolves)).1 u s' hafter
        refine ⟨h', ?_⟩
        rw [hcount, hresolves.count, List.length_cons]
        omega
      · intro e s' hrun
        rcases bind_eq_error.mp hrun with hopen | ⟨_, s₁, hopen, hafter⟩
        · exact hstops e s' hopen
        · obtain ⟨h₁, hresolves⟩ := hfirst _ s₁ hopen
          rw [← hresolves.resolvers] at hafter
          exact (ih hnodup.2 h₁ (hrest hresolves)).2 e s' hafter

/-- One round. -/
theorem resolveRound (h : Resolving program I E) (hs : I s) :
    (∀ u s', Session.resolveEach program s.resolvers s.unresolved s = .ok u s' → I s' ∧
        s'.placeholders.countP (·.resolved) =
          s.placeholders.countP (·.resolved) + s.unresolved.length) ∧
      ∀ e s', Session.resolveEach program s.resolvers s.unresolved s = .error e s' → E e s' := by
  refine h.resolveEach ((h.orderly hs).inputs.of_map.filter _) hs fun p hp => ?_
  obtain ⟨hmem, hopen⟩ := List.mem_filter.mp hp
  exact ⟨hmem, by simpa using hopen⟩

end Resolving

/-! ### Rounds -/

/-- What a number of rounds leads to.  The last one finds that no placeholder
waits, or fails. -/
inductive Rounds (program : Program α) :
    Nat → Session α → EStateM.Result (CompileError α) (Session α) Unit → Prop
  | done {s : Session α} (hdone : s.unresolved = []) : Rounds program 1 s (.ok () s)
  | failed {s s' : Session α} {e : CompileError α} (hwaits : s.unresolved ≠ [])
      (hround : resolveEach program s.resolvers s.unresolved s = .error e s') :
      Rounds program 1 s (.error e s')
  | next {s s' : Session α} {u : Unit} {rounds : Nat}
      {result : EStateM.Result (CompileError α) (Session α) Unit} (hwaits : s.unresolved ≠ [])
      (hround : resolveEach program s.resolvers s.unresolved s = .ok u s')
      (hrest : Rounds program rounds s' result) : Rounds program (rounds + 1) s result

omit [Scalar α] in
theorem resolved_of_done (hdone : s.unresolved = []) {o : OpenPlaceholder}
    (ho : o ∈ s.placeholders) : o.resolved = true := by
  by_contra hwaits
  have hmem : o ∈ s.unresolved := List.mem_filter.mpr ⟨ho, by simpa using hwaits⟩
  rw [hdone] at hmem
  cases hmem

namespace Resolving

variable {I : Session α → Prop} {E : CompileError α → Session α → Prop}

theorem rounds_within (h : Resolving program I E) {fuel : Nat} (hs : I s)
    (hfuel : program.pool.placeholderCount < s.placeholders.countP (·.resolved) + fuel) :
    ∃ rounds, rounds + s.placeholders.countP (·.resolved) ≤ program.pool.placeholderCount + 1 ∧
      Rounds program rounds s (resolveWithin program fuel s) := by
  induction fuel generalizing s with
  | zero =>
      have hresolved := List.countP_le_length (p := fun o : OpenPlaceholder => o.resolved)
        (l := s.placeholders)
      have hlength := (h.orderly hs).placeholders_length h.pool
      omega
  | succ fuel ih =>
      have hresolved : s.placeholders.countP (·.resolved) ≤ program.pool.placeholderCount :=
        Nat.le_trans List.countP_le_length ((h.orderly hs).placeholders_length h.pool)
      rw [resolveWithin_succ]
      by_cases hdone : s.unresolved = []
      · rw [if_pos hdone]
        exact ⟨1, by omega, .done hdone⟩
      · rw [if_neg hdone]
        cases hround : Session.resolveEach program s.resolvers s.unresolved s with
        | error e s₁ =>
            rw [bind_of_error hround]
            exact ⟨1, by omega, .failed hdone hround⟩
        | ok u s₁ =>
            rw [bind_of_ok hround]
            have hpos : 0 < s.unresolved.length := List.length_pos_iff.mpr hdone
            obtain ⟨h₁, hcount⟩ := (h.resolveRound hs).1 u s₁ hround
            obtain ⟨rounds, hle, hrounds⟩ := ih h₁ (by omega)
            exact ⟨rounds + 1, by omega, .next hdone hround hrounds⟩

/-- **The bound on the rounds is not reached.**  All rounds but the last one
resolve a placeholder, and the pool has no more of them than it has
expressions. -/
theorem rounds (h : Resolving program I E) (hs : I s) :
    ∃ rounds, rounds ≤ program.pool.placeholderCount + 1 ∧
      Rounds program rounds s (resolveWithin program (program.pool.size + 2) s) := by
  have hle := program.pool.placeholderCount_le
  have hfuel : program.pool.placeholderCount <
      s.placeholders.countP (·.resolved) + (program.pool.size + 2) := by omega
  obtain ⟨rounds, hrounds, hleads⟩ := h.rounds_within hs hfuel
  exact ⟨rounds, by omega, hleads⟩

/-- **What rounds lead to**: no placeholder waits in the end, or one of the
errors has come up. -/
theorem result (h : Resolving program I E) {rounds : Nat}
    {result : EStateM.Result (CompileError α) (Session α) Unit}
    (hrounds : Rounds program rounds s result) (hs : I s) :
    (∀ u s', result = .ok u s' → I s' ∧ s'.unresolved = []) ∧
      ∀ e s', result = .error e s' → E e s' := by
  induction hrounds with
  | done hdone =>
      refine ⟨?_, ?_⟩
      · rintro u s' ⟨⟩
        exact ⟨hs, hdone⟩
      · rintro e s' ⟨⟩
  | failed _ hround =>
      refine ⟨?_, ?_⟩
      · rintro u s' ⟨⟩
      · rintro e s' ⟨⟩
        exact (h.resolveRound hs).2 _ _ hround
  | next _ hround _ ih => exact ih ((h.resolveRound hs).1 _ _ hround).1

end Resolving

end Session

end SignalNet
