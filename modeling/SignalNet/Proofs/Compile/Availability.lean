import SignalNet.Compile.Compiler
import SignalNet.Proofs.Compile.Lowering
import SignalNet.Proofs.Pool.Available

/-!
# Availability and compilation

Compiling an expression asks the host for the same things as the probe: for the
devices of sensors and for the relations between frames.  Both walk down the
operands, but each in its own way.  The probe stops at the first thing that is
missing, and lowering may stop earlier for another reason; both skip what they
have met before, but lowering remembers ports, and only of what succeeded.

So each step of lowering comes with the question that it settles
(`Session.Reveals`): if it succeeds, the answer is yes, and if it stops because
something is missing (`CompileError.isAbsence`), the answer is no.  Any other
error leaves the question open.  Questions add up along a sequence
(`Session.reveals_bind`), and for a whole expression they come to its
availability (`Session.lowerWithin_reveals`).
-/

namespace SignalNet

variable {α : Type}

/-! ### What is asked of the host -/

/-- The host has what a hop needs. -/
def Hop.isOffered (host : Host α) : Hop α → Bool
  | .fixed _ => true
  | .measured _ device _ => device.all host.isPresent

theorem Host.relationAvailable_iff {host : Host α} {source target : String} :
    host.relationAvailable source target = true ↔
      ∃ path, host.path source target = some path ∧ ∀ hop ∈ path, hop.isOffered host = true := by
  unfold Host.relationAvailable
  cases host.path source target with
  | none => simp
  | some path =>
      simp only [List.all_eq_true, Option.some.injEq, exists_eq_left']
      rfl

/-- The error says that the host lacks a device or a relation. -/
def CompileError.isAbsence : CompileError α → Bool
  | .deviceUnavailable _ | .noRelation _ _ => true
  | _ => false

namespace Session

open Computing Lowering

/-! ### Steps that settle a question -/

/-- A session that has entered only available expressions, and has no source for
placeholders. -/
structure Vouched (program : Program α) (s : Session α) : Prop where
  entries : ∀ {id : ExprId} {q : PortId}, s.lowered.get? id = some q →
    program.pool.Available program.host id
  resolvers : s.resolvers = []

/-- How the end of a step answers a question: yes after a success, no if
something is missing. -/
def Answers (program : Program α) (question : Prop) {β : Type} :
    EStateM.Result (CompileError α) (Session α) β → Prop
  | .ok _ s => question ∧ Vouched program s
  | .error e _ => e.isAbsence = true → ¬ question

/-- A step that answers a question, wherever it starts. -/
def Reveals (program : Program α) (question : Prop) {β : Type} (x : Lowering α β) : Prop :=
  ∀ s, Vouched program s → Answers program question (x s)

variable {program : Program α} {A B : Prop} {β γ : Type}

theorem Reveals.congr {x : Lowering α β} (hx : Reveals program A x) (h : A ↔ B) :
    Reveals program B x :=
  propext h ▸ hx

theorem reveals_pure (b : β) : Reveals program True (pure b : Lowering α β) :=
  fun _ hs => ⟨trivial, hs⟩

/-- Stopping answers nothing, unless something is missing. -/
theorem reveals_throw {e : CompileError α} (he : e.isAbsence = true → ¬ A) :
    Reveals program A (throw e : Lowering α β) :=
  fun _ _ => he

/-- The questions of a sequence add up, and the second part may rely on the
answer to the first. -/
theorem reveals_bind {x : Lowering α β} {f : β → Lowering α γ} (hx : Reveals program A x)
    (hf : A → ∀ b, Reveals program B (f b)) : Reveals program (A ∧ B) (x >>= f) := by
  intro s hs
  have hfirst := hx s hs
  cases hrun : x s with
  | error e t =>
      rw [hrun] at hfirst
      rw [bind_of_error hrun]
      exact fun he hboth => hfirst he hboth.1
  | ok b t =>
      rw [hrun] at hfirst
      obtain ⟨hA, ht⟩ := hfirst
      rw [bind_of_ok hrun]
      have hsecond := hf hA b t ht
      cases hend : f b t with
      | error e t' =>
          rw [hend] at hsecond
          exact fun he hboth => hsecond he hboth.2
      | ok c t' =>
          rw [hend] at hsecond
          exact ⟨⟨hA, hsecond.1⟩, hsecond.2⟩

/-- A step before the one that matters. -/
theorem reveals_after {x : Lowering α β} {f : β → Lowering α γ} (hx : Reveals program True x)
    (hf : ∀ b, Reveals program B (f b)) : Reveals program B (x >>= f) :=
  (reveals_bind hx fun _ => hf).congr (Iff.of_eq (true_and B))

/-- A step after the one that matters. -/
theorem reveals_before {x : Lowering α β} {f : β → Lowering α γ} (hx : Reveals program A x)
    (hf : A → ∀ b, Reveals program True (f b)) : Reveals program A (x >>= f) :=
  (reveals_bind hx hf).congr (Iff.of_eq (and_true A))

/-- Looking at the session. -/
theorem reveals_get_bind {f : Session α → Lowering α β}
    (hf : ∀ s, Vouched program s → Answers program A (f s s)) :
    Reveals program A (get >>= f) :=
  fun s hs => hf s hs

/-- Changing the session, its entries and sources apart. -/
theorem reveals_modify {g : Session α → Session α}
    (hg : ∀ s, Vouched program s → Vouched program (g s)) :
    Reveals program True (modify g : Lowering α Unit) :=
  fun s hs => ⟨trivial, hg s hs⟩

theorem reveals_get : Reveals program True (get : Lowering α (Session α)) :=
  fun _ hs => ⟨trivial, hs⟩

/-! ### Steps that ask for nothing -/

theorem reveals_wire (call : Wiring α β) : Reveals program True (wire call) := by
  intro s hs
  unfold wire
  cases call s.fragment with
  | ok b f => exact ⟨trivial, hs.entries, hs.resolvers⟩
  | error e f => exact fun he => by cases he

theorem reveals_ofNet (x : Except NetError β) :
    Reveals program True (ofNet x : Lowering α β) := by
  cases x with
  | ok b => exact reveals_pure b
  | error e => exact reveals_throw fun he => by cases he

theorem reveals_add (primitive : Primitive α) (inputs : List PortId) (kind : Kind) :
    Reveals program True (add primitive inputs kind) := by
  unfold add
  split
  · exact reveals_wire _
  · exact reveals_wire _

theorem reveals_openPlaceholder (pool : Pool α) (id : ExprId) :
    Reveals program True (openPlaceholder pool id) := by
  have hnode : Reveals program True (ofExpr (pool.node id) : Lowering α (Node α)) := by
    cases pool.node id with
    | ok n => exact reveals_pure n
    | error e => exact reveals_throw fun he => by cases he
  refine reveals_after hnode fun n => ?_
  split
  · refine reveals_after (reveals_wire _) fun block => ?_
    refine reveals_after reveals_get fun _ => reveals_after (reveals_ofNet _) fun b => ?_
    refine reveals_after reveals_get fun _ => reveals_after (reveals_ofNet _) fun output => ?_
    refine reveals_after (reveals_modify fun s hs => ?_) fun _ => reveals_pure output
    exact ⟨hs.entries, hs.resolvers⟩
  · exact reveals_throw fun he => by cases he

/-- Entering an expression that is available. -/
theorem enter_reveals {id : ExprId} (hid : program.pool.Available program.host id) (n : Node α)
    (key : String) (port : PortId) : Reveals program True (enter id n key port) := by
  refine reveals_after reveals_get fun s => reveals_after (reveals_ofNet _) fun produced => ?_
  split
  · refine reveals_after (reveals_modify fun s hs => ?_) fun _ => reveals_pure port
    refine ⟨?_, hs.resolvers⟩
    intro j q hj
    rcases Table.get?_insert_cases hj with ⟨rfl, -⟩ | hold
    · exact hid
    · exact hs.entries hold
  · exact reveals_throw fun he => by cases he

variable [Scalar α]

theorem reveals_constPort (v : Value α) : Reveals program True (constPort v) := by
  refine reveals_after reveals_get fun s => ?_
  split
  · exact reveals_pure _
  · refine reveals_after (reveals_wire _) fun port => ?_
    refine reveals_after (reveals_modify fun s hs => ?_) fun _ => reveals_pure port
    exact ⟨hs.entries, hs.resolvers⟩

theorem reveals_anyOf (ports : List PortId) : Reveals program True (anyOf ports) := by
  unfold anyOf
  split
  · exact reveals_constPort _
  · exact reveals_pure _
  · exact reveals_add _ _ _

/-! ### Nodes -/

omit [Scalar α] in
theorem checkDevice_reveals (host : Host α) (device : Option String) :
    Reveals program (device.all host.isPresent = true) (checkDevice host device) := by
  cases device with
  | none => exact (reveals_pure ()).congr (by simp)
  | some name =>
      by_cases hpresent : host.isPresent name = true
      · rw [checkDevice, if_pos hpresent]
        exact (reveals_pure ()).congr (by simp [hpresent])
      · rw [checkDevice, if_neg hpresent]
        exact reveals_throw fun _ => hpresent

theorem lowerHop_reveals (host : Host α) (hop : Hop α) :
    Reveals program (hop.isOffered host = true) (lowerHop host hop) := by
  cases hop with
  | fixed pose => exact (reveals_constPort _).congr (by simp [Hop.isOffered])
  | measured sensor device inverted =>
      refine reveals_before (checkDevice_reveals host device) fun _ _ =>
        reveals_after (reveals_add _ _ _) fun measured => ?_
      split
      · exact reveals_add _ _ _
      · exact reveals_pure measured

theorem lowerHops_reveals (host : Host α) (before : PortId) (hops : List (Hop α)) :
    Reveals program (∀ hop ∈ hops, hop.isOffered host = true) (lowerHops host before hops) := by
  induction hops generalizing before with
  | nil => exact (reveals_pure before).congr (by simp)
  | cons hop rest ih =>
      rw [List.forall_mem_cons]
      refine reveals_bind (lowerHop_reveals host hop) fun _ port => ?_
      exact reveals_after (reveals_add _ _ _) fun product => ih product

theorem lowerRelation_reveals (host : Host α) (source target : String) :
    Reveals program (host.relationAvailable source target = true)
      (lowerRelation host source target) := by
  have hiff : host.relationAvailable source target = true ↔ _ := Host.relationAvailable_iff
  unfold lowerRelation
  cases hpath : host.path source target with
  | none => exact reveals_throw fun _ => by simp [hiff, hpath]
  | some path =>
      cases path with
      | nil => exact (reveals_constPort _).congr (by simp [hiff, hpath])
      | cons hop rest =>
          refine (reveals_bind (lowerHop_reveals host hop) fun _ first =>
            lowerHops_reveals host first rest).congr ?_
          simp [hiff, hpath]

/-- Lowering a node asks the host for what the node itself needs. -/
theorem lowerStandard_reveals (id : ExprId) (n : Node α) (inputs : List PortId) :
    Reveals program (n.form.isOffered program.host = true)
      (lowerStandard program id n inputs) := by
  unfold lowerStandard
  cases n.form with
  | sensor name device =>
      refine (reveals_before (checkDevice_reveals program.host device) fun _ _ =>
        reveals_add _ _ _).congr ?_
      cases device <;> simp [Form.isOffered]
  | relation source target => exact lowerRelation_reveals _ _ _
  | constant v => exact (reveals_constPort v).congr (by simp [Form.isOffered])
  | placeholder number label => exact (reveals_openPlaceholder _ _).congr (by simp [Form.isOffered])
  | parameter name =>
      refine Reveals.congr (A := True) ?_ (by simp [Form.isOffered])
      dsimp only [lowerParameter]
      split
      · exact reveals_throw fun he => by cases he
      · split
        · exact reveals_constPort _
        · exact reveals_throw fun he => by cases he
  | persisted handle =>
      refine Reveals.congr (A := True) ?_ (by simp [Form.isOffered])
      dsimp only
      split
      · exact reveals_throw fun he => by cases he
      · exact reveals_add _ _ _
  | custom c => exact reveals_throw fun he => by cases he
  | _ => exact (reveals_add _ _ _).congr (by simp [Form.isOffered])

/-! ### Expressions -/

omit [Scalar α] in
theorem lowerEach_reveals {lower : ExprId → Lowering α PortId} {ids : List ExprId}
    (hlower : ∀ id ∈ ids, Reveals program (program.pool.Available program.host id) (lower id)) :
    Reveals program (∀ d ∈ ids, program.pool.Available program.host d)
      (lowerEach lower ids) := by
  induction ids with
  | nil => exact (reveals_pure []).congr (by simp)
  | cons id rest ih =>
      rw [List.forall_mem_cons]
      refine reveals_bind (hlower id List.mem_cons_self) fun _ port => ?_
      exact reveals_before (ih fun d hd => hlower d (List.mem_cons_of_mem id hd))
        fun _ ports => reveals_pure _

/-- **Lowering an expression asks whether it is available**, by the rules of
the library. -/
theorem lowerWithin_reveals (hrules : program.rules = .standard) (fuel : Nat) (id : ExprId) :
    Reveals program (program.pool.Available program.host id) (lowerWithin program fuel id) := by
  induction fuel generalizing id with
  | zero => exact reveals_throw fun he => by cases he
  | succ fuel ih =>
      refine reveals_get_bind fun s hs => ?_
      cases hfind : s.lowered.get? id with
      | some port => exact ⟨hs.entries hfind, hs⟩
      | none =>
          dsimp only
          unfold Pool.node
          cases hn : program.pool.get? id with
          | none => exact fun he => by cases he
          | some n =>
              have hiff : program.pool.Available program.host id ↔ _ := Pool.available_iff hn
              refine ((reveals_bind (lowerEach_reveals fun d _ => ih d) fun hoperands inputs =>
                ?_).congr (and_comm.trans hiff.symm)) s hs
              cases hrule : Rules.lookup? program.rules n.form.keys with
              | none => exact reveals_throw fun he => by cases he
              | some found =>
                  obtain ⟨key, rule⟩ := found
                  obtain rfl : rule = .standard := Rules.lookup?_standard (hrules ▸ hrule)
                  refine reveals_before (lowerStandard_reveals id n inputs) fun hoffered port => ?_
                  exact enter_reveals (hiff.mpr ⟨hoffered, hoperands⟩) n key port

/-! ### Whole compilations -/

omit [Scalar α] in
theorem reveals_exposeEach (channels : List (String × PortId)) :
    Reveals program True (exposeEach channels : Lowering α Unit) := by
  induction channels with
  | nil => exact reveals_pure ()
  | cons channel rest ih => exact reveals_after (reveals_wire _) fun _ => ih

omit [Scalar α] in
theorem reveals_registerEach (entries : List (Signal × PortId)) :
    Reveals program True (registerEach entries : Lowering α Unit) := by
  induction entries with
  | nil => exact reveals_pure ()
  | cons entry rest ih => exact reveals_after (reveals_wire _) fun _ => ih

omit [Scalar α] in
theorem reveals_publish (target : PortId ⊕ ActionPorts) :
    Reveals program True (publish target : Lowering α Unit) := by
  cases target with
  | inl root => exact reveals_pure ()
  | inr ports => exact reveals_after (reveals_exposeEach _) fun _ => reveals_registerEach _

theorem reveals_aggregateStates (registry : Registry) (states : List State)
    (ports : Table State PortId) :
    Reveals program True (aggregateStates registry states ports) := by
  induction states generalizing ports with
  | nil => exact reveals_pure ports
  | cons state rest ih => exact reveals_after (reveals_anyOf _) fun port => ih _

theorem reveals_aggregateClasses (registry : Registry) (classes : List ExceptionClass)
    (ports : Table ExceptionClass PortId) :
    Reveals program True (aggregateClasses registry classes ports) := by
  induction classes generalizing ports with
  | nil => exact reveals_pure ports
  | cons c rest ih =>
      unfold aggregateClasses
      split
      · exact ih ports
      · exact reveals_after (reveals_anyOf _) fun port => ih _

/-- Without sources no placeholder can be resolved, so nothing more is lowered. -/
theorem reveals_resolveEach (waiting : List OpenPlaceholder) :
    Reveals program True (resolveEach program [] waiting) := by
  induction waiting with
  | nil => exact reveals_pure ()
  | cons p rest ih =>
      exact reveals_after (reveals_throw fun he => by cases he) fun _ => ih

theorem reveals_finish : Reveals program True (finish program) := by
  have hrounds : ∀ fuel, Reveals program True (resolveWithin program fuel) := by
    intro fuel
    induction fuel with
    | zero => exact reveals_pure ()
    | succ fuel ih =>
        intro s hs
        rw [resolveWithin_succ, hs.resolvers]
        split
        · exact ⟨trivial, hs⟩
        · exact reveals_after (reveals_resolveEach s.unresolved) (fun _ => ih) s hs
  refine reveals_after (hrounds _) fun _ => reveals_after reveals_get fun s => ?_
  exact reveals_after (reveals_ofNet _) fun _ => reveals_pure _

/-- **Compiling an expression asks whether it is available.** -/
theorem compile_expr_reveals (hrules : program.rules = .standard) (id : ExprId)
    (parameters : Parameters α) :
    Reveals program (program.pool.Available program.host id)
      (compile program { target := .expr id, parameters }) := by
  have htarget : Reveals program (program.pool.Available program.host id)
      (lowerTarget program (.expr id)) :=
    reveals_before (lowerWithin_reveals hrules _ id) fun _ port =>
      reveals_after (reveals_wire _) fun _ => reveals_pure _
  refine reveals_before htarget fun _ target => ?_
  refine reveals_after (reveals_publish target) fun _ => ?_
  refine reveals_after (reveals_pure _) fun observed => reveals_after reveals_get fun s => ?_
  refine reveals_after (reveals_aggregateStates _ _ _) fun states => ?_
  refine reveals_after (reveals_aggregateClasses _ _ _) fun exceptions => ?_
  exact reveals_after reveals_finish fun fragment => reveals_pure _

end Session

open Session

/-- **Availability predicts what is missing.**  If an expression of a reachable
pool can be compiled with the rules of the library, then the probe says that it
is available on the host.  If the probe says so, then compiling it never fails
for want of a device or a relation. -/
theorem Compiler.availability_predicts [Scalar α] {pool : Pool α} (hpool : pool.Reachable)
    (settings : Settings α) (host : Host α) (parameters : Parameters α) (id : ExprId) :
    (∀ net, Compiler.compile ⟨.standard, settings⟩ pool host
        { target := .expr id, parameters } = .ok net → pool.isAvailable host id = true) ∧
    (pool.isAvailable host id = true → ∀ e, Compiler.compile ⟨.standard, settings⟩ pool host
        { target := .expr id, parameters } = .error e →
      (∀ device, e ≠ .deviceUnavailable device) ∧ ∀ source target, e ≠ .noRelation source target) := by
  have hvouched : Vouched ⟨pool, .standard, parameters, settings, host⟩ .empty :=
    ⟨fun h => (by cases h), rfl⟩
  have hreveals := compile_expr_reveals rfl id parameters .empty hvouched
  rw [Pool.isAvailable_iff hpool.wellFormed]
  unfold Compiler.compile
  cases settings.check with
  | error cause =>
      refine ⟨fun net hnet => (by cases hnet), ?_⟩
      rintro - e ⟨⟩
      exact ⟨fun device h => (by cases h), fun source target h => (by cases h)⟩
  | ok u =>
      dsimp only
      cases hrun : Session.compile ⟨pool, .standard, parameters, settings, host⟩
          { target := .expr id, parameters } .empty with
      | ok net s =>
          rw [hrun] at hreveals
          exact ⟨fun _ _ => hreveals.1, fun _ e he => by cases he⟩
      | error cause s =>
          rw [hrun] at hreveals
          refine ⟨fun net hnet => (by cases hnet), ?_⟩
          rintro havailable e ⟨⟩
          have hpresent : ¬ cause.isAbsence = true := fun he => hreveals he havailable
          refine ⟨?_, ?_⟩
          · rintro device rfl
            exact hpresent rfl
          · rintro source target rfl
            exact hpresent rfl

/-- A tool that is seen by a camera, and the reading of a marker on it. -/
def Sample.sighting : Pool Float :=
  Pool.performAll [.deviceSensor .offline "camera" "marker" .transform,
    .relation "tool" "world", .binary .mul 0 1] { folding := false }

/-- The way from the tool to the world leads through the camera. -/
def Sample.workshop (present : Bool) : Host Float :=
  .ofTables ((DeviceTable.addDevice {} "camera" (some 0)).setPresent "camera" present)
    (Table.insert {} ("tool", "world") [.measured "marker" (some "camera") true, .fixed .identity])

/-- What can be compiled with the camera is available, and without it there is
the other error. -/
theorem Compiler.sighting_availability :
    (∃ net, Compiler.compile ⟨.standard, .standard⟩ Sample.sighting (Sample.workshop true)
        { target := .expr 2 } = .ok net) ∧
      Sample.sighting.isAvailable (Sample.workshop true) 2 = true ∧
      Compiler.compile ⟨.standard, .standard⟩ Sample.sighting (Sample.workshop false)
        { target := .expr 2 } = .error (.deviceUnavailable "camera") ∧
      ¬ Sample.sighting.isAvailable (Sample.workshop false) 2 = true := by
  have hpool : Sample.sighting.Reachable := ⟨false, _, rfl⟩
  have hok : (Compiler.compile ⟨.standard, .standard⟩ Sample.sighting (Sample.workshop true)
      { target := .expr 2 }).isOk = true := by decide +kernel
  have herror : Compiler.compile ⟨.standard, .standard⟩ Sample.sighting (Sample.workshop false)
      { target := .expr 2 } = .error (.deviceUnavailable "camera") := by
    have hfailure : (match Compiler.compile ⟨.standard, .standard⟩ Sample.sighting
          (Sample.workshop false) { target := .expr 2 } with
        | .ok _ => none
        | .error e => some e) = some (.deviceUnavailable "camera") := by decide +kernel
    split at hfailure
    · cases hfailure
    · next e hrun =>
        cases hfailure
        exact hrun
  obtain ⟨hpredicts, -⟩ :=
    Compiler.availability_predicts hpool .standard (Sample.workshop true) {} 2
  obtain ⟨-, hexcludes⟩ :=
    Compiler.availability_predicts hpool .standard (Sample.workshop false) {} 2
  cases hnet : Compiler.compile ⟨.standard, .standard⟩ Sample.sighting (Sample.workshop true)
      { target := .expr 2 } with
  | error e =>
      rw [hnet] at hok
      cases hok
  | ok net =>
      refine ⟨⟨net, rfl⟩, hpredicts net hnet, herror, ?_⟩
      exact fun havailable => (hexcludes havailable _ herror).1 "camera" rfl

end SignalNet
