import SignalNet.Proofs.Compile.Loops

/-!
# What a compiled command announces

A network gives names to some of its ports, and has one port for each state
that was registered.  This file follows both from the ports of a command to
the network:

* before a command is published, only milestones are registered
  (`Session.closed_registers`), and its action knows no states but that it is
  completed or active (`Session.lowerAction_statePorts`);
* publishing names the channels and registers the states
  (`Session.publish_announces`);
* a state that is registered for one port gets this port
  (`Session.aggregateStates_get?`);
* `Session.compile_announces` is the result for a network.
-/

namespace SignalNet

open Computing

/-! ### Tables in order -/

theorem mem_insertBy {β : Type} {le : β → β → Bool} {x y : β} {list : List β}
    (h : y = x ∨ y ∈ list) : y ∈ insertBy le x list := by
  induction list with
  | nil => simpa [insertBy] using h
  | cons z rest ih =>
      rw [insertBy]
      split
      · exact List.mem_cons.mpr h
      · rcases h with hx | hy
        · exact List.mem_cons_of_mem _ (ih (Or.inl hx))
        · rcases List.mem_cons.mp hy with rfl | hrest
          · exact List.mem_cons_self
          · exact List.mem_cons_of_mem _ (ih (Or.inr hrest))

theorem mem_sortBy {β : Type} {le : β → β → Bool} {y : β} {list : List β} (h : y ∈ list) :
    y ∈ sortBy le list := by
  induction list with
  | nil => cases h
  | cons x rest ih =>
      rcases List.mem_cons.mp h with rfl | hrest
      · exact mem_insertBy (Or.inl rfl)
      · exact mem_insertBy (Or.inr (ih hrest))

/-- What a table holds is among its entries in order. -/
theorem Table.mem_sorted {κ ν : Type} [DecidableEq κ] {t : Table κ ν} {k : κ} {v : ν}
    (h : t.get? k = some v) (le : κ → κ → Bool) : (k, v) ∈ t.sorted le := by
  obtain ⟨⟨k', v'⟩, hfind, rfl⟩ := Option.map_eq_some_iff.mp h
  obtain rfl : k' = k := by simpa using List.find?_some hfind
  exact mem_sortBy (List.mem_of_find?_eq_some hfind)

/-! ### Registries -/

namespace Registry

variable {r : Registry} {state : State} {q : PortId}

theorem mem_statePorts : q ∈ r.statePorts state ↔ (.state state, q) ∈ r.entries := by
  unfold statePorts
  rw [List.mem_filterMap]
  constructor
  · rintro ⟨⟨signal, p⟩, hmem, hsome⟩
    cases signal with
    | state t => simp_all
    | exception c => simp at hsome
  · exact fun hmem => ⟨_, hmem, if_pos rfl⟩

/-- Other signals leave a state alone. -/
theorem statePorts_register_of_ne {signal : Signal} (h : signal ≠ .state state) :
    (r.register signal q).statePorts state = r.statePorts state := by
  unfold register
  split
  · rfl
  · unfold statePorts
    rw [List.filterMap_append]
    cases signal with
    | state t =>
        have hne : t ≠ state := fun heq => h (congrArg Signal.state heq)
        simp [hne]
    | exception c => simp

/-- The first port of a state. -/
theorem statePorts_register_first (h : r.statePorts state = []) :
    (r.register (.state state) q).statePorts state = [q] := by
  have hnew : (.state state, q) ∉ r.entries := by
    rw [← mem_statePorts, h]
    exact List.not_mem_nil
  unfold statePorts at h
  unfold register statePorts
  rw [if_neg hnew, List.filterMap_append, h]
  simp

/-- A port that is registered already. -/
theorem register_of_mem {signal : Signal} (h : (signal, q) ∈ r.entries) :
    r.register signal q = r :=
  if_pos h

/-- Enter signals from left to right. -/
def registerAll (entries : List (Signal × PortId)) (r : Registry) : Registry :=
  entries.foldl (fun r e => r.register e.1 e.2) r

theorem statePorts_registerAll_again {entries : List (Signal × PortId)}
    (hr : r.statePorts state = [q])
    (hentries : ∀ p, (.state state, p) ∈ entries → p = q) :
    (registerAll entries r).statePorts state = [q] := by
  induction entries generalizing r with
  | nil => exact hr
  | cons entry rest ih =>
      obtain ⟨signal, p⟩ := entry
      refine ih ?_ fun p hp => hentries p (List.mem_cons_of_mem _ hp)
      show (r.register signal p).statePorts state = [q]
      by_cases hsignal : signal = .state state
      · subst hsignal
        obtain rfl := hentries p List.mem_cons_self
        rw [register_of_mem (mem_statePorts.mp (hr ▸ List.mem_cons_self)), hr]
      · rw [statePorts_register_of_ne hsignal, hr]

/-- A registry takes over the only port of a state. -/
theorem statePorts_registerAll {entries : List (Signal × PortId)} (hr : r.statePorts state = [])
    (hentries : (⟨entries⟩ : Registry).statePorts state = [q]) :
    (registerAll entries r).statePorts state = [q] := by
  induction entries generalizing r with
  | nil => cases hentries
  | cons entry rest ih =>
      obtain ⟨signal, p⟩ := entry
      by_cases hsignal : signal = .state state
      · subst hsignal
        simp only [statePorts, List.filterMap_cons, if_pos] at hentries
        obtain ⟨rfl, hnone⟩ := List.cons.inj hentries
        show (registerAll rest (r.register (.state state) p)).statePorts state = [p]
        refine statePorts_registerAll_again (statePorts_register_first hr) ?_
        intro p' hp'
        have hmem : p' ∈ (⟨rest⟩ : Registry).statePorts state := mem_statePorts.mpr hp'
        rw [statePorts, hnone] at hmem
        cases hmem
      · refine ih ?_ ?_
        · rw [statePorts_register_of_ne hsignal, hr]
        · cases signal with
          | state t =>
              have hne : t ≠ state := fun heq => hsignal (congrArg Signal.state heq)
              simpa [statePorts, hne] using hentries
          | exception c => simpa [statePorts] using hentries

/-- The state that an entry is about. -/
def stateOf? : Signal × PortId → Option State
  | (.state s, _) => some s
  | (.exception _, _) => none

/-- The class of exceptions that an entry is about. -/
def classOf? : Signal × PortId → Option ExceptionClass
  | (.exception c, _) => some c
  | (.state _, _) => none

/-- Collect what is picked from an entry, unless it has been found. -/
def collect {β : Type} [DecidableEq β] (pick : Signal × PortId → Option β) (found : List β)
    (e : Signal × PortId) : List β :=
  match pick e with
  | some y => if y ∈ found then found else found ++ [y]
  | none => found

theorem mem_collect {β : Type} [DecidableEq β] {pick : Signal × PortId → Option β}
    {found : List β} {e : Signal × PortId} {x : β} :
    x ∈ collect pick found e ↔ x ∈ found ∨ pick e = some x := by
  unfold collect
  cases pick e with
  | none => simp
  | some y =>
      by_cases hy : y ∈ found
      · have hknown : y = x → x ∈ found := fun heq => heq ▸ hy
        simpa [hy] using hknown
      · simp [hy, eq_comm]

/-- What is picked from the entries is collected, and nothing else. -/
theorem mem_foldl_collect {β : Type} [DecidableEq β] {pick : Signal × PortId → Option β}
    {entries : List (Signal × PortId)} {found : List β} {x : β} :
    x ∈ entries.foldl (collect pick) found ↔ x ∈ found ∨ ∃ e ∈ entries, pick e = some x := by
  induction entries generalizing found with
  | nil => simp
  | cons entry rest ih => rw [List.foldl_cons, ih, mem_collect, or_assoc, List.exists_mem_cons_iff]

/-- The states of a registry are those with a port. -/
theorem mem_states_iff : state ∈ r.states ↔ ∃ q, (.state state, q) ∈ r.entries := by
  have hfold : r.states = r.entries.foldl (collect stateOf?) [] := by
    unfold states
    congr 1
    funext found ⟨signal, p⟩
    cases signal <;> rfl
  rw [hfold, mem_foldl_collect]
  constructor
  · rintro (hnil | ⟨⟨_ | _, q⟩, hmem, ⟨⟩⟩)
    · cases hnil
    · exact ⟨q, hmem⟩
  · rintro ⟨q, hmem⟩
    exact Or.inr ⟨_, hmem, rfl⟩

/-- A state with a port is one of the states. -/
theorem mem_states (h : (.state state, q) ∈ r.entries) : state ∈ r.states :=
  mem_states_iff.mpr ⟨q, h⟩

/-- So are the classes of exceptions. -/
theorem mem_exceptionClasses {c : ExceptionClass} :
    c ∈ r.exceptionClasses ↔ ∃ q, (.exception c, q) ∈ r.entries := by
  have hfold : r.exceptionClasses = r.entries.foldl (collect classOf?) [] := by
    unfold exceptionClasses
    congr 1
    funext found ⟨signal, p⟩
    cases signal <;> rfl
  rw [hfold, mem_foldl_collect]
  constructor
  · rintro (hnil | ⟨⟨_ | _, q⟩, hmem, ⟨⟩⟩)
    · cases hnil
    · exact ⟨q, hmem⟩
  · rintro ⟨q, hmem⟩
    exact Or.inr ⟨_, hmem, rfl⟩

theorem mem_exceptionPorts {c : ExceptionClass} :
    q ∈ r.exceptionPorts c ↔ ∃ e, (.exception e, q) ∈ r.entries ∧ e.isA c = true := by
  unfold exceptionPorts
  rw [List.mem_filterMap]
  constructor
  · rintro ⟨⟨signal, p⟩, hmem, hsome⟩
    cases signal with
    | state t => simp at hsome
    | exception e =>
        by_cases hisA : e.isA c = true
        · simp only [hisA, if_true, Option.some.injEq] at hsome
          subst hsome
          exact ⟨e, hmem, hisA⟩
        · simp [hisA] at hsome
  · rintro ⟨e, hmem, hisA⟩
    exact ⟨_, hmem, if_pos hisA⟩

/-- A relation that holds while milestones are registered. -/
structure Grown (R : Registry → Registry → Prop) : Prop where
  refl : ∀ r, R r r
  trans : ∀ {r₁ r₂ r₃}, R r₁ r₂ → R r₂ r₃ → R r₁ r₃
  milestone : ∀ r name q, R r (r.register (.state (.milestone name)) q)

/-- Two registries have the same ports for every state but milestones. -/
def Alike (r r' : Registry) : Prop :=
  ∀ {state : State}, (∀ name, state ≠ .milestone name) → r'.statePorts state = r.statePorts state

theorem grown_alike : Grown Alike where
  refl _ _ _ := rfl
  trans h₁ h₂ _ hstate := (h₂ hstate).trans (h₁ hstate)
  milestone _ name _ _ hstate :=
    statePorts_register_of_ne fun heq => hstate name (Signal.state.inj heq).symm

/-- A registry has all entries of another one. -/
def Includes (r r' : Registry) : Prop :=
  ∀ entry ∈ r.entries, entry ∈ r'.entries

theorem includes_register (r : Registry) (signal : Signal) (q : PortId) :
    r.Includes (r.register signal q) := by
  intro entry hentry
  unfold register
  split
  · exact hentry
  · exact List.mem_append_left _ hentry

theorem mem_register (r : Registry) (signal : Signal) (q : PortId) :
    (signal, q) ∈ (r.register signal q).entries := by
  unfold register
  split
  · assumption
  · exact List.mem_append_right _ List.mem_cons_self

theorem grown_includes : Grown Includes where
  refl _ _ hentry := hentry
  trans h₁ h₂ entry hentry := h₂ entry (h₁ entry hentry)
  milestone r _ q := includes_register r _ q

end Registry

namespace Session

open Lowering

variable {α : Type} [Scalar α] {targets : List ExprId} {program : Program α} {s s' : Session α}

/-! ### What is registered -/

/-- A step keeps a fragment well formed, and relates what is registered before
it to what is registered after it. -/
def Registers (R : Registry → Registry → Prop) (s s' : Session α) : Prop :=
  s.fragment.WellFormed → s'.fragment.WellFormed ∧ R s.fragment.signals s'.fragment.signals

section Registers

variable {R : Registry → Registry → Prop}

omit [Scalar α] in
theorem Registers.trans (hR : Registry.Grown R) {s₁ s₂ s₃ : Session α} (h₁ : s₁.Registers R s₂)
    (h₂ : s₂.Registers R s₃) : s₁.Registers R s₃ := by
  intro h
  obtain ⟨hwell₂, hsignals₂⟩ := h₁ h
  obtain ⟨hwell₃, hsignals₃⟩ := h₂ hwell₂
  exact ⟨hwell₃, hR.trans hsignals₂ hsignals₃⟩

omit [Scalar α] in
/-- Nothing is registered if the registry stays as it is. -/
theorem registers_of_signals (hR : Registry.Grown R)
    (hwell : s.fragment.WellFormed → s'.fragment.WellFormed)
    (hsignals : s'.fragment.signals = s.fragment.signals) : s.Registers R s' :=
  fun h => ⟨hwell h, hsignals ▸ hR.refl _⟩

theorem stepwise_registers (hR : Registry.Grown R) : Stepwise (Registers (α := α) R) where
  refl s := registers_of_signals hR id rfl
  trans := Registers.trans hR
  add := by
    intro primitive inputs kind s s' q hrun h
    obtain ⟨f, kinds, hadded, rfl⟩ := add_added h hrun
    exact registers_of_signals hR (fun _ => hadded.valid) hadded.signals h
  constPort := by
    intro v s s' q hrun h
    rcases constPort_cases h hrun with ⟨-, rfl⟩ | ⟨-, f, hadded, rfl⟩
    · exact registers_of_signals hR id rfl h
    · exact registers_of_signals hR (fun _ => hadded.valid) hadded.signals h

theorem registers_lower (hR : Registry.Grown R) (id : ExprId) :
    Leaves (Registers R) (lower program id) := by
  refine (stepwise_registers hR).lower ?_ (fun s id q =>
    registers_of_signals hR (fun hf => hf) rfl) id
  intro id n number label hn hform s s' q hrun
  obtain ⟨hfits, -, rfl⟩ := openPlaceholder_eq_ok hn hform hrun
  exact registers_of_signals hR (fun hf => hf.withBlock hfits) rfl

/-- **Before it is published**, a command registers nothing but milestones. -/
theorem closed_registers (hR : Registry.Grown R) (program : Program α)
    (targets : List ExprId) : Closed program targets (Registers (α := α) R) where
  toStepwise := stepwise_registers hR
  lower := registers_lower hR
  addResolver r _ s s' u hrun := by
    obtain rfl := modify_eq_ok.mp hrun
    exact registers_of_signals hR id rfl
  milestone name port s s' u hrun := by
    obtain ⟨f, hcall, rfl⟩ := wire_eq_ok.mp hrun
    obtain rfl := Fragment.register_eq_ok hcall
    exact fun h => ⟨h.withSignals _, hR.milestone _ _ _⟩
  expose name port s s' u hrun := by
    obtain ⟨f, hcall, rfl⟩ := wire_eq_ok.mp hrun
    obtain ⟨-, -, -, hwell, -, -, -, hsignals⟩ := Fragment.expose_eq_ok hcall
    exact registers_of_signals hR hwell hsignals
  storePersisted handle s s' u hrun := by
    obtain ⟨slot, source, value, s₁, kind, -, hlower, hfits, hports, hfree, rfl⟩ :=
      storePersisted_eq_ok hrun
    refine (registers_lower hR source _ _ _ hlower).trans hR
      (registers_of_signals hR ?_ rfl)
    exact fun hf => (hf.withBlock hfits).withWire hports hfree

end Registers

/-! ### The signals of actions -/

/-- A wrapper passes on no states but milestones. -/
theorem statePorts_passedOn (handled : List ExceptionClass) {inner : Registry} {state : State}
    (h : inner.statePorts state = [] ∨ ∀ name, state ≠ .milestone name) :
    (passedOn handled inner).statePorts state = [] := by
  unfold passedOn
  refine List.foldlRecOn (motive := fun r : Registry => r.statePorts state = []) _ _ rfl ?_
  rintro passed hpassed ⟨signal, q⟩ hentry
  cases signal with
  | state t =>
      cases t with
      | milestone name =>
          have hne : Signal.state (.milestone name) ≠ .state state := by
            rintro ⟨⟩
            rcases h with hnone | hother
            · have hmem := Registry.mem_statePorts.mpr hentry
              rw [hnone] at hmem
              cases hmem
            · exact hother name rfl
          dsimp only
          rw [Registry.statePorts_register_of_ne hne, hpassed]
      | _ => exact hpassed
  | exception c =>
      dsimp only
      split
      · exact hpassed
      · rw [Registry.statePorts_register_of_ne (by simp), hpassed]

theorem lowerRaises_statePorts {raises : List RaiseSite} {signals result : Registry}
    (hrun : lowerRaises program raises signals s = .ok result s') (state : State) :
    result.statePorts state = signals.statePorts state := by
  induction raises generalizing s signals with
  | nil =>
      obtain ⟨rfl, -⟩ := pure_eq_ok.mp hrun
      rfl
  | cons site rest ih =>
      obtain ⟨port, s₁, -, hafter⟩ := bind_eq_ok.mp hrun
      obtain ⟨_, s₂, -, hrest⟩ := bind_eq_ok.mp hafter
      rw [ih hrest, Registry.statePorts_register_of_ne (by simp)]

omit [Scalar α] in
theorem registerCompleted_statePorts {completed : PortId} {signals result : Registry}
    (hrun : registerCompleted completed signals s = .ok result s')
    (hnone : signals.statePorts .completed = []) :
    result.statePorts .completed = [completed] ∧
      ∀ state, state ≠ .completed → state ≠ .active →
        result.statePorts state = signals.statePorts state := by
  obtain ⟨active, s₁, -, hafter⟩ := bind_eq_ok.mp hrun
  obtain ⟨rfl, -⟩ := pure_eq_ok.mp hafter
  constructor
  · rw [Registry.statePorts_register_of_ne (by simp), Registry.statePorts_register_first hnone]
  · intro state hcompleted hactive
    rw [Registry.statePorts_register_of_ne (by simp [Ne.symm hactive]),
      Registry.statePorts_register_of_ne (by simp [Ne.symm hcompleted])]

/-- **The states of an action.**  It is completed or active itself, and knows no
other states. -/
theorem lowerAction_statePorts {a : Action α} {ports : ActionPorts}
    (hrun : lowerAction program a s = .ok ports s') {state : State} (hcompleted : state ≠ .completed)
    (hactive : state ≠ .active) : ports.signals.statePorts state = [] := by
  induction a generalizing s s' ports with
  | basic name motion raises =>
      obtain ⟨outputs, completed, signals₁, signals₂, s₁, s₂, -, hregister, hraises, rfl⟩ :=
        lowerAction_basic_eq_ok hrun
      show signals₂.statePorts state = []
      rw [lowerRaises_statePorts hraises,
        (registerCompleted_statePorts hregister rfl).2 state hcompleted hactive]
      rfl
  | wrapped name inner handled raises ih =>
      obtain ⟨inside, completed, signals₁, signals₂, s₁, s₂, s₃, hinside, -, hregister, hraises,
        rfl⟩ := lowerAction_wrapped_eq_ok hrun
      have hnone : (passedOn handled inside.signals).statePorts .completed = [] :=
        statePorts_passedOn handled (Or.inr (by simp))
      show signals₂.statePorts state = []
      rw [lowerRaises_statePorts hraises,
        (registerCompleted_statePorts hregister hnone).2 state hcompleted hactive,
        statePorts_passedOn handled (Or.inl (ih hinside))]

/-! ### Publishing -/

omit [Scalar α] in
theorem exposeEach_outputs {names : List (String × PortId)} {u : Unit}
    (hrun : exposeEach names s = .ok u s') :
    s.fragment.Extends s'.fragment ∧ s'.fragment.signals = s.fragment.signals ∧
      ∀ name q, (name, q) ∈ names → s'.fragment.output? name = some q := by
  induction names generalizing s with
  | nil =>
      obtain ⟨-, rfl⟩ := pure_eq_ok.mp hrun
      exact ⟨.refl _, rfl, by simp⟩
  | cons entry rest ih =>
      obtain ⟨_, s₁, hfirst, hrest⟩ := bind_eq_ok.mp hrun
      obtain ⟨f, hcall, rfl⟩ := wire_eq_ok.mp hfirst
      obtain ⟨-, hextends₁, hname, -, -, -, -, hsignals₁⟩ := Fragment.expose_eq_ok hcall
      obtain ⟨hextends, hsignals, hnames⟩ := ih hrest
      refine ⟨hextends₁.trans hextends, hsignals.trans hsignals₁, ?_⟩
      intro name q hmem
      rcases List.mem_cons.mp hmem with rfl | hmem
      · exact hextends.outputs hname
      · exact hnames name q hmem

omit [Scalar α] in
theorem registerEach_signals {entries : List (Signal × PortId)} {u : Unit}
    (hrun : registerEach entries s = .ok u s') :
    s'.fragment.signals = s.fragment.signals.registerAll entries ∧
      s.fragment.Extends s'.fragment := by
  induction entries generalizing s with
  | nil =>
      obtain ⟨-, rfl⟩ := pure_eq_ok.mp hrun
      exact ⟨rfl, .refl _⟩
  | cons entry rest ih =>
      obtain ⟨_, s₁, hfirst, hrest⟩ := bind_eq_ok.mp hrun
      obtain ⟨f, hcall, rfl⟩ := wire_eq_ok.mp hfirst
      obtain rfl := Fragment.register_eq_ok hcall
      obtain ⟨hsignals, hextends⟩ := ih hrest
      exact ⟨hsignals, (Fragment.withSignals_extends _ _).trans hextends⟩

omit [Scalar α] in
/-- **Publishing** names the channels, and registers a state that has one
port. -/
theorem publish_announces {ports : ActionPorts} {u : Unit}
    (hrun : publish (.inr ports) s = .ok u s') :
    (∀ {name : String} {q : PortId}, ports.outputs.get? name = some q →
      s'.fragment.output? name = some q) ∧
    ∀ {state : State} {q : PortId}, s.fragment.signals.statePorts state = [] →
      ports.signals.statePorts state = [q] → s'.fragment.signals.statePorts state = [q] := by
  obtain ⟨_, s₁, hexpose, hregister⟩ := bind_eq_ok.mp hrun
  obtain ⟨-, hsignals₁, hnames⟩ := exposeEach_outputs hexpose
  obtain ⟨hsignals, hextends⟩ := registerEach_signals hregister
  constructor
  · exact fun hq => hextends.outputs (hnames _ _ (Table.mem_sorted hq textLe))
  · intro state q hnone hone
    rw [hsignals, hsignals₁]
    exact Registry.statePorts_registerAll hnone hone

/-- A state with one port is given this port. -/
theorem aggregateStates_get? {registry : Registry} {state : State} {q : PortId}
    (hone : registry.statePorts state = [q]) {states : List State}
    {ports result : Table State PortId}
    (hrun : aggregateStates registry states ports s = .ok result s')
    (hknown : state ∈ states ∨ ports.get? state = some q) : result.get? state = some q := by
  induction states generalizing s ports with
  | nil =>
      obtain ⟨rfl, -⟩ := pure_eq_ok.mp hrun
      exact hknown.resolve_left List.not_mem_nil
  | cons first rest ih =>
      obtain ⟨p, s₁, hany, hrest⟩ := bind_eq_ok.mp hrun
      by_cases hfirst : first = state
      · subst hfirst
        rw [hone] at hany
        obtain ⟨rfl, -⟩ := pure_eq_ok.mp hany
        exact ih hrest (Or.inr (Table.get?_insert_self _ _ _))
      · refine ih hrest (hknown.imp (fun hmem => ?_) fun hget => ?_)
        · exact (List.mem_cons.mp hmem).resolve_left (Ne.symm hfirst)
        · rw [Table.get?_insert_of_ne _ _ (Ne.symm hfirst), hget]

/-- **A network** closes the loops of what was lowered for it, and announces its
channels and its states. -/
theorem compile_announces (hp : program.pool.WellFormed) {request : Request α} {net : CompiledNet α}
    {ports : ActionPorts} {t : Session α}
    (hlower : lowerTarget program request.target empty = .ok (.inr ports) t)
    (ht : Wired program t) (hquiet : Registers Registry.Alike (empty : Session α) t)
    (hrun : Session.compile program request empty = .ok net s') :
    (Wired program s' ∧ t.Grows targets s') ∧ s'.fragment = net.fragment ∧ Resolved program s' ∧
      (∀ {name : String} {q : PortId}, ports.outputs.get? name = some q →
        net.fragment.output? name = some q) ∧
      ∀ {state : State} {q : PortId}, (∀ name, state ≠ .milestone name) →
        ports.signals.statePorts state = [q] → net.statePort? state = some q := by
  obtain ⟨_, _, s₂, s₃, s₄, s₅, htarget, hpublish, hobserve, hstates, hexceptions, hfinish, -⟩ :=
    compile_stages hrun
  rw [hlower] at htarget
  cases htarget
  have hclosed := closed_steps program targets
  obtain ⟨h₂, hgrows₂⟩ := hclosed.publish steps_register _ _ _ _ hpublish ht
  obtain ⟨houtputs, hpublished⟩ := publish_announces hpublish
  obtain ⟨h₃, hgrows₃⟩ := hclosed.observeEach _ _ _ _ _ hobserve h₂
  obtain ⟨h₄, hgrows₄⟩ := hclosed.aggregateStates _ _ _ _ _ _ hstates h₃
  obtain ⟨h₅, hgrows₅⟩ := hclosed.aggregateClasses _ _ _ _ _ _ hexceptions h₄
  obtain ⟨⟨h₆, hgrows₆⟩, hfragment, hclosing⟩ := h₅.finish hp hfinish
  have hgrows := hgrows₃.trans (hgrows₄.trans (hgrows₅.trans hgrows₆))
  refine ⟨⟨h₆, hgrows₂.trans hgrows⟩, hfragment, hclosing, ?_, ?_⟩
  · exact fun hq => hfragment ▸ hgrows.fragment.outputs (houtputs hq)
  · intro state q hstate hq
    -- Nobody has registered the state before it is published.
    have hnone : t.fragment.signals.statePorts state = [] :=
      (hquiet Fragment.wellFormed_empty).2 hstate
    have hone : s₃.fragment.signals.statePorts state = [q] :=
      (((closed_registers Registry.grown_alike program targets).observeEach _ _ _ _ _ hobserve
        h₂.wellFormed).2 hstate).trans (hpublished hnone hq)
    have hentry : q ∈ s₃.fragment.signals.statePorts state := by
      rw [hone]
      exact List.mem_cons_self
    exact aggregateStates_get? hone hstates
      (Or.inl (Registry.mem_states (Registry.mem_statePorts.mp hentry)))

end Session

end SignalNet
