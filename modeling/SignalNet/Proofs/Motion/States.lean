import SignalNet.Proofs.Compile.Discipline
import SignalNet.Proofs.Pool.Course

/-!
# What state expressions mean

A state expression says of every cycle whether a state holds.  Its meaning is
given by recursion on the expression and without reference to how it is
lowered, from the courses of its conditions and from what the ports of an
action carry.

Conditions and ports are expected to carry booleans.  Where one does not, a
state may be left undecided: a verdict is an `Option Bool`.  A conjunction is
still decided by a member that does not hold, and a disjunction by one that
does.

* `StateExpr.meaning` is the meaning.
* `StateExpr.meaning_decided`: it is decided in every cycle, provided that the
  conditions and the ports carry booleans.
-/

namespace SignalNet

/-! ### Verdicts -/

namespace Verdict

/-- Both hold. -/
def both : Option Bool → Option Bool → Option Bool
  | some false, _ => some false
  | some true, w => w
  | none, some false => some false
  | none, _ => none

/-- It does not hold. -/
def negation (v : Option Bool) : Option Bool :=
  v.map (!·)

/-- One of the two holds. -/
def either (v w : Option Bool) : Option Bool :=
  negation (both (negation v) (negation w))

def all (verdicts : List (Option Bool)) : Option Bool :=
  verdicts.foldr both (some true)

def any (verdicts : List (Option Bool)) : Option Bool :=
  verdicts.foldr either (some false)

@[simp] theorem negation_some (b : Bool) : negation (some b) = some !b :=
  rfl

@[simp] theorem both_some (a b : Bool) : both (some a) (some b) = some (a && b) := by
  cases a <;> rfl

@[simp] theorem either_some (a b : Bool) : either (some a) (some b) = some (a || b) := by
  cases a <;> cases b <;> rfl

@[simp] theorem both_false (v : Option Bool) : both v (some false) = some false := by
  rcases v with _ | _ | _ <;> rfl

@[simp] theorem both_true (v : Option Bool) : both v (some true) = v := by
  rcases v with _ | _ | _ <;> rfl

@[simp] theorem either_false (v : Option Bool) : either v (some false) = v := by
  rcases v with _ | _ | _ <;> rfl

@[simp] theorem false_both (v : Option Bool) : both (some false) v = some false :=
  rfl

@[simp] theorem false_either (v : Option Bool) : either (some false) v = v := by
  rcases v with _ | _ | _ <;> rfl

theorem all_some (bs : List Bool) : all (bs.map some) = some (bs.all id) := by
  induction bs with
  | nil => rfl
  | cons b rest ih =>
      show both (some b) (all (rest.map some)) = _
      rw [ih, both_some]
      rfl

theorem any_some (bs : List Bool) : any (bs.map some) = some (bs.any id) := by
  induction bs with
  | nil => rfl
  | cons b rest ih =>
      show either (some b) (any (rest.map some)) = _
      rw [ih, either_some]
      rfl

theorem both_decided {v w : Option Bool} (hv : v.isSome) (hw : w.isSome) :
    (both v w).isSome := by
  obtain ⟨a, rfl⟩ := Option.isSome_iff_exists.mp hv
  obtain ⟨b, rfl⟩ := Option.isSome_iff_exists.mp hw
  simp

theorem either_decided {v w : Option Bool} (hv : v.isSome) (hw : w.isSome) :
    (either v w).isSome := by
  obtain ⟨a, rfl⟩ := Option.isSome_iff_exists.mp hv
  obtain ⟨b, rfl⟩ := Option.isSome_iff_exists.mp hw
  simp

theorem any_decided {verdicts : List (Option Bool)} (h : ∀ v ∈ verdicts, v.isSome) :
    (any verdicts).isSome := by
  induction verdicts with
  | nil => rfl
  | cons v rest ih =>
      rw [List.forall_mem_cons] at h
      exact either_decided h.1 (ih h.2)

/-! ### Verdicts that remember -/

/-- On from the cycle in which it is set, until it is reset.  Setting takes
precedence. -/
def latch (set reset : Nat → Option Bool) : Nat → Option Bool
  | 0 => either (set 0) (both (some false) (negation (reset 0)))
  | n + 1 => either (set (n + 1)) (both (latch set reset n) (negation (reset (n + 1))))

variable {α : Type} [Scalar α]

/-- For how long something has held, counted from the cycle in which it began
to hold. -/
def since (period : Nat → α) (x : Nat → Option Bool) : Nat → Option (Option α)
  | 0 => (x 0).map fun on => if on then some 0 else none
  | n + 1 =>
    match x (n + 1) with
    | some true => (since period x n).map fun before => some (before.elim 0 (· + period (n + 1)))
    | some false => some none
    | none => none

/-- Something has held for a duration. -/
def timer (period : Nat → α) (duration : α) (x : Nat → Option Bool) (n : Nat) : Option Bool :=
  (since period x n).map (hasElapsed duration)

omit [Scalar α] in
/-- A latch that is never set stays off. -/
theorem latch_never {set reset : Nat → Option Bool} (hset : ∀ n, set n = some false) (n : Nat) :
    latch set reset n = some false := by
  induction n with
  | zero => simp [latch, hset]
  | succ n ih => simp [latch, hset, ih]

/-- What never holds has not held for any duration. -/
theorem timer_never {period : Nat → α} {duration : α} {x : Nat → Option Bool}
    (hx : ∀ n, x n = some false) (n : Nat) : timer period duration x n = some false := by
  have hsince : since period x n = some none := by
    cases n with
    | zero => simp [since, hx]
    | succ n => simp [since, hx]
  simp [timer, hsince, hasElapsed]

omit [Scalar α] in
theorem latch_decided {set reset : Nat → Option Bool} {n : Nat}
    (hset : ∀ k ≤ n, (set k).isSome) (hreset : ∀ k ≤ n, (reset k).isSome) :
    (latch set reset n).isSome := by
  induction n with
  | zero =>
      exact either_decided (hset 0 (Nat.le_refl 0)) rfl
  | succ n ih =>
      refine either_decided (hset _ (Nat.le_refl _)) (both_decided ?_ ?_)
      · exact ih (fun k hk => hset k (by omega)) fun k hk => hreset k (by omega)
      · simpa [negation] using hreset _ (Nat.le_refl _)

theorem timer_decided {period : Nat → α} {duration : α} {x : Nat → Option Bool} {n : Nat}
    (hx : ∀ k ≤ n, (x k).isSome) : (timer period duration x n).isSome := by
  have hsince : (since period x n).isSome := by
    induction n with
    | zero => simpa [since] using hx 0 (Nat.le_refl 0)
    | succ n ih =>
        obtain ⟨a, ha⟩ := Option.isSome_iff_exists.mp (hx _ (Nat.le_refl _))
        cases a with
        | false => simp [since, ha]
        | true => simpa [since, ha] using ih fun k hk => hx k (by omega)
  simpa [timer] using hsince

end Verdict

/-! ### Actions and their signals -/

namespace ActionPorts

mutual

/-- An action and the actions inside it, going down before going on. -/
def preorder : ActionPorts → List ActionPorts
  | mk name outputs signals inner => mk name outputs signals inner :: preorderAmong inner

def preorderAmong : List ActionPorts → List ActionPorts
  | [] => []
  | ports :: rest => ports.preorder ++ preorderAmong rest

end

mutual

/-- The action of a name is the first one of that name. -/
theorem find?_eq (wanted : String) : ∀ ports : ActionPorts,
    ports.find? wanted = ports.preorder.find? fun a => decide (a.name = wanted)
  | .mk own outputs signals inner => by
      rw [find?, preorder, List.find?_cons]
      by_cases hname : own = wanted
      · simp [ActionPorts.name, hname]
      · simpa [ActionPorts.name, hname] using findAmong?_eq wanted inner

theorem findAmong?_eq (wanted : String) : ∀ list : List ActionPorts,
    findAmong? wanted list = (preorderAmong list).find? fun a => decide (a.name = wanted)
  | [] => rfl
  | ports :: rest => by
      rw [findAmong?, preorderAmong, List.find?_append, ← find?_eq wanted ports,
        ← findAmong?_eq wanted rest]
      cases ports.find? wanted <;> rfl

end

end ActionPorts

namespace Signal

/-- A signal stands for exactly this state. -/
def isState (state : State) : Signal → Bool
  | .state s => decide (s = state)
  | .exception _ => false

/-- A signal stands for an exception that a handler for this class handles. -/
def isException (c : ExceptionClass) : Signal → Bool
  | .exception e => e.isA c
  | .state _ => false

end Signal

namespace Registry

/-- One of the ports carries `true` that are registered for signals of some
sort. -/
def shows (r : Registry) (sort : Signal → Bool) (carried : PortId → Option Bool) : Option Bool :=
  Verdict.any ((r.entries.filter fun e => sort e.1).map fun e => carried e.2)

theorem shows_state (r : Registry) (state : State) (carried : PortId → Option Bool) :
    r.shows (Signal.isState state) carried = Verdict.any ((r.statePorts state).map carried) := by
  obtain ⟨entries⟩ := r
  unfold shows statePorts
  induction entries with
  | nil => rfl
  | cons e rest ih =>
      obtain ⟨signal, port⟩ := e
      cases signal with
      | state s =>
          by_cases hs : s = state
          · simpa [Signal.isState, hs, Verdict.any] using congrArg (Verdict.either _) ih
          · simpa [Signal.isState, hs] using ih
      | exception c => simpa [Signal.isState] using ih

theorem shows_exception (r : Registry) (c : ExceptionClass) (carried : PortId → Option Bool) :
    r.shows (Signal.isException c) carried =
      Verdict.any ((r.exceptionPorts c).map carried) := by
  obtain ⟨entries⟩ := r
  unfold shows exceptionPorts
  induction entries with
  | nil => rfl
  | cons e rest ih =>
      obtain ⟨signal, port⟩ := e
      cases signal with
      | exception e =>
          by_cases he : e.isA c = true
          · simpa [Signal.isException, he, Verdict.any] using congrArg (Verdict.either _) ih
          · simpa [Signal.isException, he] using ih
      | state s => simpa [Signal.isException] using ih

end Registry

/-! ### State expressions -/

namespace StateExpr

variable {α : Type} [Scalar α]

mutual

/-- The meaning of a state expression about an action: the state holds in a
cycle, or does not.  Ports carry what `carried` says. -/
def meaning (p : Pool α) (σ : Setting α) (carried : PortId → Nat → Option Bool)
    (action : ActionPorts) : StateExpr α → Nat → Option Bool
  | .condition id => fun n => (p.course σ id n).bind Value.asBoolean?
  | .of state => fun n => action.signals.shows (Signal.isState state) (carried · n)
  | .exception c => fun n => action.signals.shows (Signal.isException c) (carried · n)
  | .and members => meaningOfAll p σ carried action members
  | .or members => meaningOfAny p σ carried action members
  | .not inner => fun n => Verdict.negation (meaning p σ carried action inner n)
  | .explicit activate deactivate =>
    Verdict.latch (meaning p σ carried action activate) (meaningIfAny p σ carried action deactivate)
  | .long inner duration =>
    Verdict.timer (fun n => (σ.around n).period) duration (meaning p σ carried action inner)
  | .scoped name inner =>
    match action.preorder.find? fun a => decide (a.name = name) with
    | some found => meaning p σ carried found inner
    | none => fun _ => some false
  | .named _ inner => meaning p σ carried action inner

/-- All members hold. -/
def meaningOfAll (p : Pool α) (σ : Setting α) (carried : PortId → Nat → Option Bool)
    (action : ActionPorts) : List (StateExpr α) → Nat → Option Bool
  | [] => fun _ => some true
  | member :: rest => fun n =>
    Verdict.both (meaning p σ carried action member n) (meaningOfAll p σ carried action rest n)

/-- Some member holds. -/
def meaningOfAny (p : Pool α) (σ : Setting α) (carried : PortId → Nat → Option Bool)
    (action : ActionPorts) : List (StateExpr α) → Nat → Option Bool
  | [] => fun _ => some false
  | member :: rest => fun n =>
    Verdict.either (meaning p σ carried action member n) (meaningOfAny p σ carried action rest n)

/-- What is missing never holds. -/
def meaningIfAny (p : Pool α) (σ : Setting α) (carried : PortId → Nat → Option Bool)
    (action : ActionPorts) : Option (StateExpr α) → Nat → Option Bool
  | none => fun _ => some false
  | some e => meaning p σ carried action e

end

variable {p : Pool α} {σ : Setting α} {carried : PortId → Nat → Option Bool}

/-- The ports of an action carry booleans up to a cycle. -/
def Carried (carried : PortId → Nat → Option Bool) (n : Nat) (action : ActionPorts) : Prop :=
  action.Every fun q => ∀ k ≤ n, (carried q k).isSome

/-- The conditions among some expressions are booleans up to a cycle. -/
def Decided (p : Pool α) (σ : Setting α) (n : Nat) (ids : List ExprId) : Prop :=
  ∀ id ∈ ids, ∀ k ≤ n, ((p.course σ id k).bind Value.asBoolean?).isSome

theorem Decided.mono {n k : Nat} {ids more : List ExprId} (h : Decided p σ n more) (hk : k ≤ n)
    (hids : ∀ id ∈ ids, id ∈ more) : Decided p σ k ids :=
  fun id hid j hj => h id (hids id hid) j (Nat.le_trans hj hk)

theorem Carried.mono {n k : Nat} {action : ActionPorts} (h : Carried carried n action)
    (hk : k ≤ n) : Carried carried k action :=
  ActionPorts.Every.mono h fun _ hq j hj => hq j (Nat.le_trans hj hk)

theorem shows_decided {n : Nat} {action : ActionPorts} (h : Carried carried n action)
    (sort : Signal → Bool) : (action.signals.shows sort (carried · n)).isSome := by
  apply Verdict.any_decided
  intro v hv
  obtain ⟨⟨signal, q⟩, hentry, rfl⟩ := List.mem_map.mp hv
  exact ActionPorts.Every.signals h signal q (List.mem_filter.mp hentry).1 n (Nat.le_refl n)

mutual

/-- **A state expression decides.**  If its conditions and the ports of the
action carry booleans in all cycles so far, so does its meaning. -/
theorem meaning_decided : ∀ (e : StateExpr α) {action : ActionPorts} {n : Nat},
    Decided p σ n e.conditions → Carried carried n action →
    (e.meaning p σ carried action n).isSome
  | .condition id, action, n, hconditions, _ => by
      rw [meaning]
      exact hconditions id (by simp [conditions]) n (Nat.le_refl n)
  | .of state, action, n, _, hports => by
      rw [meaning]
      exact shows_decided hports _
  | .exception c, action, n, _, hports => by
      rw [meaning]
      exact shows_decided hports _
  | .and members, action, n, hconditions, hports => by
      rw [meaning]
      exact (membersDecided members (by simpa [conditions] using hconditions) hports).1
  | .or members, action, n, hconditions, hports => by
      rw [meaning]
      exact (membersDecided members (by simpa [conditions] using hconditions) hports).2
  | .not inner, action, n, hconditions, hports => by
      rw [meaning]
      simpa [Verdict.negation] using
        meaning_decided inner (by simpa [conditions] using hconditions) hports
  | .explicit activate deactivate, action, n, hconditions, hports => by
      rw [meaning]
      refine Verdict.latch_decided (fun k hk => ?_) fun k hk => ?_
      · refine meaning_decided activate (hconditions.mono hk ?_) (hports.mono hk)
        simp only [conditions, List.mem_append]
        exact fun id hid => Or.inl hid
      · cases deactivate with
        | none => simp [meaningIfAny]
        | some d =>
            rw [meaningIfAny]
            refine meaning_decided d (hconditions.mono hk ?_) (hports.mono hk)
            simp only [conditions, conditionsIfAny, List.mem_append]
            exact fun id hid => Or.inr hid
  | .long inner duration, action, n, hconditions, hports => by
      rw [meaning]
      refine Verdict.timer_decided fun k hk => ?_
      refine meaning_decided inner (hconditions.mono hk ?_) (hports.mono hk)
      simp only [conditions]
      exact fun id hid => hid
  | .scoped name inner, action, n, hconditions, hports => by
      rw [meaning, ← ActionPorts.find?_eq]
      cases hfind : action.find? name with
      | none => rfl
      | some found =>
          exact meaning_decided inner (by simpa [conditions] using hconditions)
            (hports.find? hfind)
  | .named name inner, action, n, hconditions, hports => by
      rw [meaning]
      exact meaning_decided inner (by simpa [conditions] using hconditions) hports

theorem membersDecided : ∀ (members : List (StateExpr α)) {action : ActionPorts} {n : Nat},
    Decided p σ n (conditionsAmong members) → Carried carried n action →
    (meaningOfAll p σ carried action members n).isSome ∧
      (meaningOfAny p σ carried action members n).isSome
  | [], action, n, _, _ => by simp [meaningOfAll, meaningOfAny]
  | member :: rest, action, n, hconditions, hports => by
      have hmember := meaning_decided member
        (hconditions.mono (Nat.le_refl n) (by simp +contextual [conditionsAmong])) hports
      have hrest := membersDecided rest
        (hconditions.mono (Nat.le_refl n) (by simp +contextual [conditionsAmong])) hports
      rw [meaningOfAll, meaningOfAny]
      exact ⟨Verdict.both_decided hmember hrest.1, Verdict.either_decided hmember hrest.2⟩

end

end StateExpr

end SignalNet
