import SignalNet.Compile.Command
import SignalNet.Proofs.Compile.Typing
import SignalNet.Proofs.Motion.Built

/-!
# States and exceptions are booleans

Actions and commands are lowered to ports for their states and exceptions.
All of these ports are outputs for booleans (`ActionPorts.Booleans`), however
deep the action stands:

* `Session.Typed.lowerState` says it for state expressions, by induction on
  the expression;
* `Session.Typed.lowerAction` and `Session.Typed.lowerCommand` say it for
  actions and commands.
-/

namespace SignalNet

open Computing Lowering

variable {α : Type}

/-! ### Ports of actions -/

/-- The signals of an action, and of the actions inside it, are booleans. -/
inductive ActionPorts.Booleans (f : Fragment α) : ActionPorts → Prop
  | mk {name : String} {outputs : Table String PortId} {signals : Registry}
      {inner : List ActionPorts} (hsignals : f.Signals signals)
      (hinner : ∀ ports ∈ inner, Booleans f ports) : Booleans f (.mk name outputs signals inner)

namespace ActionPorts

variable {f : Fragment α}

theorem Booleans.signals {ports : ActionPorts} (h : ports.Booleans f) :
    f.Signals ports.signals := by
  cases h with
  | mk hsignals _ => exact hsignals

theorem Booleans.extend {g : Fragment α} (hg : f.Extends g) {ports : ActionPorts}
    (h : ports.Booleans f) : ports.Booleans g := by
  induction h with
  | mk hsignals _ ih => exact .mk (hsignals.extend hg) ih

/-- An action inside an action has boolean signals, too. -/
theorem Booleans.find? {name : String} {ports found : ActionPorts} (h : ports.Booleans f)
    (hfind : ports.find? name = some found) : found.Booleans f := by
  have hinside : GoesInside (Booleans f) := by
    rintro _ _ _ _ ⟨-, hinner⟩
    exact hinner
  exact hinside.find? name ports h hfind

end ActionPorts

namespace Session

variable [Scalar α] {program : Program α} {s s' : Session α}

/-! ### State expressions -/

/-- What a state expression is lowered to, if it is anything, is a boolean. -/
def Maybe (s : Session α) : Option PortId → Prop
  | none => True
  | some q => s.fragment.Offers q .boolean

omit [Scalar α] in
theorem Maybe.extend (hextends : s.fragment.Extends s'.fragment) {result : Option PortId}
    (h : s.Maybe result) : s'.Maybe result := by
  cases result with
  | none => trivial
  | some q => exact Fragment.Offers.extend hextends h

omit [Scalar α] in
theorem Maybe.append {first : Option PortId} (h : s.Maybe first) {rest : List PortId}
    (hrest : ∀ q ∈ rest, s.fragment.Offers q .boolean) :
    ∀ q ∈ first.toList ++ rest, s.fragment.Offers q .boolean := by
  intro q hq
  rcases List.mem_append.mp hq with hq | hq
  · obtain rfl := Option.mem_toList.mp hq
    exact h
  · exact hrest q hq

theorem Typed.register (h : Typed program s) {signal : Signal} {q : PortId}
    (hq : s.fragment.Offers q .boolean) {u : Unit}
    (hrun : Session.register signal q s = .ok u s') : Leads program s s' := by
  obtain ⟨f, hcall, rfl⟩ := wire_eq_ok.mp hrun
  obtain rfl := Fragment.register_eq_ok hcall
  have hextends := Fragment.withSignals_extends s.fragment (s.fragment.signals.register signal q)
  have hsignals := (h.signals.register hq signal).extend hextends
  exact ⟨⟨h.wellFormed.withSignals _, fun hb => h.blocks hb, h.entries, h.constants, hsignals⟩,
    hextends⟩

theorem Typed.anyOf? (h : Typed program s) {ports : List PortId}
    (hports : ∀ r ∈ ports, s.fragment.Offers r .boolean) {result : Option PortId}
    (hrun : Session.anyOf? ports s = .ok result s') :
    Leads program s s' ∧ s'.Maybe result := by
  cases ports with
  | nil =>
      obtain ⟨rfl, rfl⟩ := pure_eq_ok.mp hrun
      exact ⟨h.leads, trivial⟩
  | cons port rest =>
      obtain ⟨q, hany, rfl⟩ := map_eq_ok.mp hrun
      obtain ⟨hleads, hq⟩ := h.anyOf hports hany
      exact ⟨hleads, hq⟩

theorem Typed.resetPort (h : Typed program s) {off : Option PortId} (hoff : s.Maybe off)
    {q : PortId} (hrun : Session.resetPort off s = .ok q s') :
    Leads program s s' ∧ s'.fragment.Offers q .boolean := by
  cases off with
  | none => exact h.constPort hrun
  | some port =>
      obtain ⟨rfl, rfl⟩ := pure_eq_ok.mp hrun
      exact ⟨h.leads, hoff⟩

theorem Typed.lowerLatch (h : Typed program s) {set : PortId}
    (hset : s.fragment.Offers set .boolean) {off : Option PortId} (hoff : s.Maybe off)
    {result : Option PortId} (hrun : Session.lowerLatch set off s = .ok result s') :
    Leads program s s' ∧ s'.Maybe result := by
  obtain ⟨reset, s₁, hreset, hafter⟩ := bind_eq_ok.mp hrun
  obtain ⟨q, hadd, rfl⟩ := map_eq_ok.mp hafter
  obtain ⟨hleads, hreset⟩ := h.resetPort hoff hreset
  obtain ⟨hleads', hq⟩ := hleads.typed.add hadd
    (.cons (Fragment.Offers.extend hleads.extends hset) (.cons hreset .nil)) ⟨rfl, rfl⟩
  exact ⟨hleads.trans hleads', hq⟩

mutual

/-- **A state expression is a boolean**, or nothing if it never holds. -/
theorem Typed.lowerState (hprogram : program.Regular) : ∀ (e : StateExpr α) {action : ActionPorts}
    {s s' : Session α} {result : Option PortId}, Typed program s → action.Booleans s.fragment →
    Session.lowerState program action e s = .ok result s' →
    Leads program s s' ∧ s'.Maybe result
  | .condition id, action, s, s', result, h, _, hrun => by
      rw [Session.lowerState] at hrun
      by_cases hnever : neverHolds program id = true
      · rw [if_pos hnever] at hrun
        obtain ⟨rfl, rfl⟩ := pure_eq_ok.mp hrun
        exact ⟨h.leads, trivial⟩
      · rw [if_neg hnever] at hrun
        obtain ⟨port, s₁, hlower, hafter⟩ := bind_eq_ok.mp hrun
        obtain ⟨_, s₂, hexpect, hafter⟩ := bind_eq_ok.mp hafter
        obtain ⟨rfl, rfl⟩ := pure_eq_ok.mp hafter
        exact h.lowerBoolean hprogram hlower hexpect
  | .of state, action, s, s', result, h, haction, hrun => by
      rw [Session.lowerState] at hrun
      exact h.anyOf? (haction.signals.statePorts state) hrun
  | .exception c, action, s, s', result, h, haction, hrun => by
      rw [Session.lowerState] at hrun
      exact h.anyOf? (haction.signals.exceptionPorts c) hrun
  | .and members, action, s, s', result, h, haction, hrun => by
      rw [Session.lowerState] at hrun
      obtain ⟨found, s₁, hmembers, hafter⟩ := bind_eq_ok.mp hrun
      obtain ⟨hleads, hports⟩ := Typed.lowerAllStates hprogram members h haction hmembers
      cases found with
      | none =>
          obtain ⟨rfl, rfl⟩ := pure_eq_ok.mp hafter
          exact ⟨hleads, trivial⟩
      | some ports =>
          obtain ⟨q, hall, rfl⟩ := map_eq_ok.mp hafter
          obtain ⟨hleads₂, hq⟩ := hleads.typed.allOf (hports ports rfl) hall
          exact ⟨hleads.trans hleads₂, hq⟩
  | .or [], action, s, s', result, h, _, hrun => by
      rw [Session.lowerState] at hrun
      obtain ⟨q, hconst, rfl⟩ := map_eq_ok.mp hrun
      exact h.constPort hconst
  | .or (member :: members), action, s, s', result, h, haction, hrun => by
      rw [Session.lowerState] at hrun
      obtain ⟨first, s₁, hfirst, hafter⟩ := bind_eq_ok.mp hrun
      obtain ⟨rest, s₂, hrest, hafter⟩ := bind_eq_ok.mp hafter
      obtain ⟨hleads₁, hq⟩ := Typed.lowerState hprogram member h haction hfirst
      obtain ⟨hleads₂, hports⟩ := Typed.lowerSomeStates hprogram members hleads₁.typed
        (haction.extend hleads₁.extends) hrest
      have hall := (hq.extend hleads₂.extends).append hports
      obtain ⟨hleads₃, hresult⟩ := hleads₂.typed.anyOf? hall hafter
      exact ⟨hleads₁.trans (hleads₂.trans hleads₃), hresult⟩
  | .not inner, action, s, s', result, h, haction, hrun => by
      rw [Session.lowerState] at hrun
      obtain ⟨found, s₁, hinner, hafter⟩ := bind_eq_ok.mp hrun
      obtain ⟨hleads, hq⟩ := Typed.lowerState hprogram inner h haction hinner
      cases found with
      | some port =>
          obtain ⟨q, hnegate, rfl⟩ := map_eq_ok.mp hafter
          obtain ⟨hleads₂, hresult⟩ := hleads.typed.negate hq hnegate
          exact ⟨hleads.trans hleads₂, hresult⟩
      | none =>
          obtain ⟨q, hconst, rfl⟩ := map_eq_ok.mp hafter
          obtain ⟨hleads₂, hresult⟩ := hleads.typed.constPort hconst
          exact ⟨hleads.trans hleads₂, hresult⟩
  | .explicit activate deactivate, action, s, s', result, h, haction, hrun => by
      rw [Session.lowerState_explicit] at hrun
      obtain ⟨found, s₁, hset, hafter⟩ := bind_eq_ok.mp hrun
      obtain ⟨hleads₁, hq⟩ := Typed.lowerState hprogram activate h haction hset
      cases found with
      | none =>
          obtain ⟨rfl, rfl⟩ := pure_eq_ok.mp hafter
          exact ⟨hleads₁, trivial⟩
      | some set =>
          obtain ⟨off, s₂, hdeactivate, hlatch⟩ := bind_eq_ok.mp hafter
          have hoff : Leads program s₁ s₂ ∧ s₂.Maybe off := by
            cases deactivate with
            | none =>
                obtain ⟨rfl, rfl⟩ := pure_eq_ok.mp hdeactivate
                exact ⟨hleads₁.typed.leads, trivial⟩
            | some e =>
                exact Typed.lowerState hprogram e hleads₁.typed (haction.extend hleads₁.extends)
                  hdeactivate
          obtain ⟨hleads₂, hoff⟩ := hoff
          obtain ⟨hleads₃, hresult⟩ := hleads₂.typed.lowerLatch
            (Fragment.Offers.extend hleads₂.extends hq) hoff hlatch
          exact ⟨hleads₁.trans (hleads₂.trans hleads₃), hresult⟩
  | .long inner duration, action, s, s', result, h, haction, hrun => by
      rw [Session.lowerState] at hrun
      obtain ⟨found, s₁, hinner, hafter⟩ := bind_eq_ok.mp hrun
      obtain ⟨hleads, hq⟩ := Typed.lowerState hprogram inner h haction hinner
      cases found with
      | some port =>
          obtain ⟨q, htimer, rfl⟩ := map_eq_ok.mp hafter
          obtain ⟨hleads₂, hresult⟩ := hleads.typed.timer hq htimer
          exact ⟨hleads.trans hleads₂, hresult⟩
      | none =>
          obtain ⟨rfl, rfl⟩ := pure_eq_ok.mp hafter
          exact ⟨hleads, trivial⟩
  | .scoped name inner, action, s, s', result, h, haction, hrun => by
      rw [Session.lowerState] at hrun
      cases hfind : action.find? name with
      | none =>
          simp only [hfind] at hrun
          exact absurd hrun throw_ne_ok
      | some found =>
          simp only [hfind] at hrun
          exact Typed.lowerState hprogram inner h
            (haction.find? hfind) hrun
  | .named name inner, action, s, s', result, h, haction, hrun => by
      rw [Session.lowerState] at hrun
      obtain ⟨found, s₁, hinner, hafter⟩ := bind_eq_ok.mp hrun
      obtain ⟨hleads, hq⟩ := Typed.lowerState hprogram inner h haction hinner
      cases found with
      | some port =>
          obtain ⟨_, s₂, hregister, hafter⟩ := bind_eq_ok.mp hafter
          obtain ⟨rfl, rfl⟩ := pure_eq_ok.mp hafter
          have hleads₂ := hleads.typed.register hq hregister
          exact ⟨hleads.trans hleads₂, Fragment.Offers.extend hleads₂.extends hq⟩
      | none =>
          obtain ⟨rfl, rfl⟩ := pure_eq_ok.mp hafter
          exact ⟨hleads, trivial⟩

theorem Typed.lowerAllStates (hprogram : program.Regular) : ∀ (members : List (StateExpr α))
    {action : ActionPorts} {s s' : Session α} {result : Option (List PortId)}, Typed program s →
    action.Booleans s.fragment →
    Session.lowerAllStates program action members s = .ok result s' →
    Leads program s s' ∧ ∀ ports, result = some ports →
      ∀ q ∈ ports, s'.fragment.Offers q .boolean
  | [], action, s, s', result, h, _, hrun => by
      rw [Session.lowerAllStates] at hrun
      obtain ⟨rfl, rfl⟩ := pure_eq_ok.mp hrun
      exact ⟨h.leads, by simp⟩
  | member :: rest, action, s, s', result, h, haction, hrun => by
      rw [Session.lowerAllStates] at hrun
      obtain ⟨first, s₁, hfirst, hafter⟩ := bind_eq_ok.mp hrun
      obtain ⟨hleads₁, hq⟩ := Typed.lowerState hprogram member h haction hfirst
      cases first with
      | none =>
          obtain ⟨rfl, rfl⟩ := pure_eq_ok.mp hafter
          exact ⟨hleads₁, by simp⟩
      | some port =>
          obtain ⟨others, s₂, hrest, hafter⟩ := bind_eq_ok.mp hafter
          obtain ⟨rfl, rfl⟩ := pure_eq_ok.mp hafter
          obtain ⟨hleads₂, hports⟩ := Typed.lowerAllStates hprogram rest hleads₁.typed
            (haction.extend hleads₁.extends) hrest
          refine ⟨hleads₁.trans hleads₂, ?_⟩
          intro ports hresult q hmem
          obtain ⟨tail, rfl, rfl⟩ := Option.map_eq_some_iff.mp hresult
          rcases List.mem_cons.mp hmem with rfl | hmem
          · exact Fragment.Offers.extend hleads₂.extends hq
          · exact hports tail rfl q hmem

theorem Typed.lowerSomeStates (hprogram : program.Regular) : ∀ (members : List (StateExpr α))
    {action : ActionPorts} {s s' : Session α} {ports : List PortId}, Typed program s →
    action.Booleans s.fragment →
    Session.lowerSomeStates program action members s = .ok ports s' →
    Leads program s s' ∧ ∀ q ∈ ports, s'.fragment.Offers q .boolean
  | [], action, s, s', ports, h, _, hrun => by
      rw [Session.lowerSomeStates] at hrun
      obtain ⟨rfl, rfl⟩ := pure_eq_ok.mp hrun
      exact ⟨h.leads, by simp⟩
  | member :: rest, action, s, s', ports, h, haction, hrun => by
      rw [Session.lowerSomeStates] at hrun
      obtain ⟨first, s₁, hfirst, hafter⟩ := bind_eq_ok.mp hrun
      obtain ⟨others, s₂, hrest, hafter⟩ := bind_eq_ok.mp hafter
      obtain ⟨rfl, rfl⟩ := pure_eq_ok.mp hafter
      obtain ⟨hleads₁, hq⟩ := Typed.lowerState hprogram member h haction hfirst
      obtain ⟨hleads₂, hports⟩ := Typed.lowerSomeStates hprogram rest hleads₁.typed
        (haction.extend hleads₁.extends) hrest
      exact ⟨hleads₁.trans hleads₂, (hq.extend hleads₂.extends).append hports⟩

end

/-! ### Actions -/

omit [Scalar α] in
/-- What a wrapper passes on are signals of the action inside. -/
theorem passedOn_signals {f : Fragment α} {r : Registry} (h : f.Signals r)
    (handled : List ExceptionClass) : f.Signals (passedOn handled r) := by
  unfold passedOn
  refine List.foldlRecOn _ _ (Fragment.signals_empty f) ?_
  rintro passed hpassed ⟨signal, q⟩ hentry
  have hq := h signal q hentry
  cases signal with
  | state t =>
      cases t with
      | milestone name => exact hpassed.register hq _
      | _ => exact hpassed
  | exception c =>
      dsimp only
      split
      · exact hpassed
      · exact hpassed.register hq _

theorem Typed.lowerRaises (hprogram : program.Regular) (h : Typed program s)
    {raises : List RaiseSite} {signals result : Registry} (hsignals : s.fragment.Signals signals)
    (hrun : Session.lowerRaises program raises signals s = .ok result s') :
    Leads program s s' ∧ s'.fragment.Signals result := by
  induction raises generalizing s signals with
  | nil =>
      obtain ⟨rfl, rfl⟩ := pure_eq_ok.mp hrun
      exact ⟨h.leads, hsignals⟩
  | cons site rest ih =>
      obtain ⟨port, s₁, hlower, hafter⟩ := bind_eq_ok.mp hrun
      obtain ⟨_, s₂, hexpect, hrest⟩ := bind_eq_ok.mp hafter
      obtain ⟨hleads, hport⟩ := h.lowerBoolean hprogram hlower hexpect
      obtain ⟨hleads₂, hresult⟩ := ih hleads.typed
        ((hsignals.extend hleads.extends).register hport _) hrest
      exact ⟨hleads.trans hleads₂, hresult⟩

theorem Typed.registerCompleted (h : Typed program s) {completed : PortId}
    (hcompleted : s.fragment.Offers completed .boolean) {signals result : Registry}
    (hsignals : s.fragment.Signals signals)
    (hrun : Session.registerCompleted completed signals s = .ok result s') :
    Leads program s s' ∧ s'.fragment.Signals result := by
  obtain ⟨active, s₁, hnegate, hafter⟩ := bind_eq_ok.mp hrun
  obtain ⟨rfl, rfl⟩ := pure_eq_ok.mp hafter
  obtain ⟨hleads, hactive⟩ := h.negate hcompleted hnegate
  have hboth := (hsignals.register hcompleted (.state .completed)).extend hleads.extends
  exact ⟨hleads, hboth.register hactive _⟩

/-- A motion is completed by a boolean. -/
theorem Typed.lowerMotion (hprogram : program.Regular) (h : Typed program s) {motion : Motion α}
    (hmotion : motion.Typed program.pool) {outputs : Table String PortId} {completed : PortId}
    (hrun : Session.lowerMotion program motion s = .ok (outputs, completed) s') :
    Leads program s s' ∧ s'.fragment.Offers completed .boolean := by
  cases motion with
  | track channel setpoint within settle =>
      obtain ⟨out, s₁, hout, hafter⟩ := bind_eq_ok.mp hrun
      obtain ⟨port, s₂, hwithin, hafter⟩ := bind_eq_ok.mp hafter
      obtain ⟨timed, s₃, htimer, hafter⟩ := bind_eq_ok.mp hafter
      obtain ⟨heq, rfl⟩ := pure_eq_ok.mp hafter
      cases heq
      obtain ⟨hleads₁, -⟩ := h.lower hprogram hout
      obtain ⟨hleads₂, hport⟩ := hleads₁.typed.lowerKind hprogram hmotion hwithin
      obtain ⟨hleads₃, htimed⟩ := hleads₂.typed.timer hport htimer
      exact ⟨hleads₁.trans (hleads₂.trans hleads₃), htimed⟩
  | ramp channel position scale next distance =>
      obtain ⟨_, s₁, hresolver, hafter⟩ := bind_eq_ok.mp hrun
      obtain ⟨out, s₂, hout, hafter⟩ := bind_eq_ok.mp hafter
      obtain ⟨port, s₃, hdistance, hafter⟩ := bind_eq_ok.mp hafter
      obtain ⟨tolerance, s₄, hconst, hafter⟩ := bind_eq_ok.mp hafter
      obtain ⟨near, s₅, hcompare, hafter⟩ := bind_eq_ok.mp hafter
      obtain ⟨heq, rfl⟩ := pure_eq_ok.mp hafter
      cases heq
      have hleads₁ := h.addResolver hresolver
      obtain ⟨hleads₂, -⟩ := hleads₁.typed.lower hprogram hout
      obtain ⟨hleads₃, hport⟩ := hleads₂.typed.lowerKind hprogram hmotion hdistance
      obtain ⟨hleads₄, htolerance⟩ := hleads₃.typed.constPort hconst
      obtain ⟨hleads₅, hnear⟩ := hleads₄.typed.lessEq (hport.extend hleads₄.extends) htolerance
        hcompare
      exact ⟨hleads₁.trans (hleads₂.trans (hleads₃.trans (hleads₄.trans hleads₅))), hnear⟩
  | wait duration =>
      obtain ⟨on, s₁, hconst, hafter⟩ := bind_eq_ok.mp hrun
      obtain ⟨timed, s₂, htimer, hafter⟩ := bind_eq_ok.mp hafter
      obtain ⟨heq, rfl⟩ := pure_eq_ok.mp hafter
      cases heq
      obtain ⟨hleads₁, hon⟩ := h.constPort hconst
      obtain ⟨hleads₂, htimed⟩ := hleads₁.typed.timer hon htimer
      exact ⟨hleads₁.trans hleads₂, htimed⟩

/-- **The states and exceptions of an action are booleans.** -/
theorem Typed.lowerAction (hprogram : program.Regular) (h : Typed program s) {a : Action α}
    (ha : a.Typed program.pool) {ports : ActionPorts}
    (hrun : Session.lowerAction program a s = .ok ports s') :
    Leads program s s' ∧ ports.Booleans s'.fragment := by
  induction a generalizing s s' ports with
  | basic name motion raises =>
      obtain ⟨outputs, completed, signals₁, signals₂, s₁, s₂, hmotion, hcompleted, hraises, rfl⟩ :=
        lowerAction_basic_eq_ok hrun
      obtain ⟨hleads₁, hq⟩ := h.lowerMotion hprogram ha hmotion
      obtain ⟨hleads₂, hsignals₁⟩ :=
        hleads₁.typed.registerCompleted hq (Fragment.signals_empty _) hcompleted
      obtain ⟨hleads₃, hsignals₂⟩ := hleads₂.typed.lowerRaises hprogram hsignals₁ hraises
      exact ⟨hleads₁.trans (hleads₂.trans hleads₃), .mk hsignals₂ (by simp)⟩
  | wrapped name inner handled raises ih =>
      obtain ⟨inside, completed, signals₁, signals₂, s₁, s₂, s₃, hinner, hany, hcompleted, hraises,
        rfl⟩ := lowerAction_wrapped_eq_ok hrun
      obtain ⟨hleads₁, hinside⟩ := ih h ha hinner
      obtain ⟨hleads₂, hq⟩ := hleads₁.typed.anyOf (hinside.signals.statePorts .completed) hany
      have hpassed := passedOn_signals (hinside.signals.extend hleads₂.extends) handled
      obtain ⟨hleads₃, hsignals₁⟩ := hleads₂.typed.registerCompleted hq hpassed hcompleted
      obtain ⟨hleads₄, hsignals₂⟩ := hleads₃.typed.lowerRaises hprogram hsignals₁ hraises
      have hrest := hleads₂.trans (hleads₃.trans hleads₄)
      refine ⟨hleads₁.trans hrest, .mk hsignals₂ ?_⟩
      intro ports hports
      obtain rfl := List.mem_singleton.mp hports
      exact hinside.extend hrest.extends

/-! ### Commands -/

/-- The signals and the requests of handlers are booleans. -/
structure Handled.Booleans (f : Fragment α) (done : Handled) : Prop where
  signals : f.Signals done.signals
  cancels : ∀ q ∈ done.cancels, f.Offers q .boolean

omit [Scalar α] in
theorem Handled.Booleans.extend {f g : Fragment α} (hg : f.Extends g) {done : Handled}
    (h : done.Booleans f) : done.Booleans g :=
  ⟨h.signals.extend hg, fun q hq => (h.cancels q hq).extend hg⟩

theorem Typed.lowerHandlers (hprogram : program.Regular) (h : Typed program s)
    {action : ActionPorts} (haction : action.Booleans s.fragment) {handlers : List (Handler α)}
    {done result : Handled} (hdone : done.Booleans s.fragment)
    (hrun : Session.lowerHandlers program action handlers done s = .ok result s') :
    Leads program s s' ∧ result.Booleans s'.fragment := by
  induction handlers generalizing s done with
  | nil =>
      obtain ⟨rfl, rfl⟩ := pure_eq_ok.mp hrun
      exact ⟨h.leads, hdone⟩
  | cons handler rest ih =>
      obtain ⟨found, s₁, htrigger, hafter⟩ := bind_eq_ok.mp hrun
      obtain ⟨hleads₁, hport⟩ := Typed.lowerState hprogram handler.trigger h haction htrigger
      have haction₁ := haction.extend hleads₁.extends
      have hdone₁ := hdone.extend hleads₁.extends
      cases found with
      | none =>
          obtain ⟨hleads₂, hresult⟩ := ih hleads₁.typed haction₁ hdone₁ hafter
          exact ⟨hleads₁.trans hleads₂, hresult⟩
      | some port =>
          cases hreaction : handler.reaction with
          | raise c =>
              simp only [hreaction] at hafter
              have hdone₂ : ({ done with
                  signals := done.signals.register (.exception c) port } : Handled).Booleans
                  s₁.fragment := ⟨hdone₁.signals.register hport _, hdone₁.cancels⟩
              obtain ⟨hleads₂, hresult⟩ := ih hleads₁.typed haction₁ hdone₂ hafter
              exact ⟨hleads₁.trans hleads₂, hresult⟩
          | cancel =>
              simp only [hreaction] at hafter
              have hdone₂ : ({ done with cancels := done.cancels ++ [port] } : Handled).Booleans
                  s₁.fragment := by
                refine ⟨hdone₁.signals, ?_⟩
                intro q hq
                rcases List.mem_append.mp hq with hold | hnew
                · exact hdone₁.cancels q hold
                · obtain rfl := List.mem_singleton.mp hnew
                  exact hport
              obtain ⟨hleads₂, hresult⟩ := ih hleads₁.typed haction₁ hdone₂ hafter
              exact ⟨hleads₁.trans hleads₂, hresult⟩

/-- A sink has no output that could be of a wrong kind. -/
theorem Typed.storePersisted (hprogram : program.Regular) (h : Typed program s) {handle : Nat}
    {u : Unit} (hrun : Session.storePersisted program handle s = .ok u s') :
    Leads program s s' := by
  obtain ⟨slot, source, value, s₁, kind, -, hlower, hfits, hports, hfree, rfl⟩ :=
    storePersisted_eq_ok hrun
  obtain ⟨hleads₁, -⟩ := h.lower hprogram hlower
  have hleads₂ := hleads₁.typed.grow Fragment.withBlock_extends
    (hleads₁.typed.wellFormed.withBlock hfits)
    (Fragment.Typed.withBlock hleads₁.typed.blocks (by simp)) rfl
  exact hleads₁.trans (hleads₂.trans (hleads₂.typed.withWire hports hfree))

theorem Typed.storeEach (hprogram : program.Regular) (h : Typed program s) {handles : List Nat}
    {u : Unit} (hrun : Session.storeEach program handles s = .ok u s') : Leads program s s' := by
  induction handles generalizing s with
  | nil =>
      obtain ⟨-, rfl⟩ := pure_eq_ok.mp hrun
      exact h.leads
  | cons handle rest ih =>
      obtain ⟨_, s₁, hfirst, hrest⟩ := bind_eq_ok.mp hrun
      have hleads := h.storePersisted hprogram hfirst
      exact hleads.trans (ih hleads.typed hrest)

/-- Sources that are collected for ramps, if there are any, change nothing. -/
theorem Typed.ramps (h : Typed program s) {ids : List ExprId} {source : Source α}
    (hrun : ids = [] ∧ s' = s ∨ Session.addResolver ⟨ids, source⟩ s = .ok () s') :
    Leads program s s' := by
  rcases hrun with ⟨-, rfl⟩ | hresolver
  · exact h.leads
  · exact h.addResolver hresolver

theorem Typed.lowerCancelInput (hprogram : program.Regular) (h : Typed program s) {c : Command α}
    (hc : c.Typed program.pool) {action : ActionPorts} {input : PortId}
    (hrun : Session.lowerCancelInput program c s = .ok (action, input) s') :
    Leads program s s' ∧ action.Booleans s'.fragment ∧ s'.fragment.Offers input .boolean := by
  obtain ⟨s₁, s₂, s₃, haction, hresolver, hramps, hinput⟩ := lowerCancelInput_eq_ok hrun
  obtain ⟨hleads₁, hbooleans⟩ := h.lowerAction hprogram hc.action haction
  have hleads₂ := hleads₁.typed.addResolver hresolver
  have hleads₃ := hleads₂.typed.ramps hramps
  obtain ⟨hleads₄, hoffers⟩ := hleads₃.typed.lowerKind hprogram hc.cancelInput hinput
  have hrest := hleads₂.trans (hleads₃.trans hleads₄)
  exact ⟨hleads₁.trans hrest, hbooleans.extend hrest.extends, hoffers⟩

theorem Typed.lowerCancellation (hprogram : program.Regular) (h : Typed program s)
    {c : Command α} (hc : c.Typed program.pool) {action : ActionPorts}
    (haction : action.Booleans s.fragment) {handled : Handled}
    (hhandled : handled.Booleans s.fragment) {result : ActionPorts}
    (hrun : Session.lowerCancellation program c action handled s = .ok result s') :
    Leads program s s' ∧ result.Booleans s'.fragment := by
  obtain ⟨ports, s₁, s₂, s₃, s₄, s₅, s₆, s₇, hany, hresolver, hscale, hconst, hcompare, hall,
    heffective, hstores, rfl⟩ := lowerCancellation_eq_ok hrun
  obtain ⟨hleads₁, hcancel⟩ := h.anyOf hhandled.cancels hany
  have hleads₂ := hleads₁.typed.addResolver hresolver
  obtain ⟨hleads₃, hnumber⟩ := hleads₂.typed.lowerKind hprogram hc.scale hscale
  obtain ⟨hleads₄, hstill⟩ := hleads₃.typed.constPort hconst
  obtain ⟨hleads₅, hstopped⟩ :=
    hleads₄.typed.lessEq (hnumber.extend hleads₄.extends) hstill hcompare
  have hlater := hleads₂.trans (hleads₃.trans (hleads₄.trans hleads₅))
  have hboth : ∀ q ∈ [ports.cancel, ports.stopped], s₅.fragment.Offers q .boolean := by
    intro q hq
    rcases List.mem_pair.mp hq with rfl | rfl
    · exact hcancel.extend hlater.extends
    · exact hstopped
  obtain ⟨hleads₆, hcancelled⟩ := hleads₅.typed.allOf hboth hall
  obtain ⟨hleads₇, -⟩ := hleads₆.typed.lower hprogram heffective
  have hleads₈ := hleads₇.trans (hleads₇.typed.storeEach hprogram hstores)
  have htotal := hleads₁.trans (hlater.trans (hleads₆.trans hleads₈))
  refine ⟨htotal, .mk ?_ ?_⟩
  · exact (hhandled.signals.extend htotal.extends).register (hcancelled.extend hleads₈.extends) _
  · intro inner hinner
    obtain rfl := List.mem_singleton.mp hinner
    exact haction.extend htotal.extends

/-- **The states and exceptions of a command are booleans.** -/
theorem Typed.lowerCommand (hprogram : program.Regular) (h : Typed program s) {c : Command α}
    (hc : c.Typed program.pool) {ports : ActionPorts}
    (hrun : Session.lowerCommand program c s = .ok ports s') :
    Leads program s s' ∧ ports.Booleans s'.fragment := by
  obtain ⟨action, input, handled, s₁, s₂, hinput, hhandlers, hcancellation⟩ :=
    lowerCommand_eq_ok hrun
  obtain ⟨hleads₁, hbooleans, hrequest⟩ := h.lowerCancelInput hprogram hc hinput
  have hdone : (⟨action.signals, [input]⟩ : Handled).Booleans s₁.fragment :=
    ⟨hbooleans.signals, by simpa using hrequest⟩
  obtain ⟨hleads₂, hhandled⟩ := hleads₁.typed.lowerHandlers hprogram hbooleans hdone hhandlers
  obtain ⟨hleads₃, hports⟩ := hleads₂.typed.lowerCancellation hprogram hc
    (hbooleans.extend hleads₂.extends) hhandled hcancellation
  exact ⟨hleads₁.trans (hleads₂.trans hleads₃), hports⟩

end Session

end SignalNet
