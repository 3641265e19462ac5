import SignalNet.Proofs.Compile.Meaning
import SignalNet.Proofs.Folding.Script

/-!
# Folding and running networks

The courses of integers and booleans are a reading of a pool, cycle by cycle.
So folding keeps what the network of an expression does, with one exception:
an edge detector takes its input to have been false before the first cycle, so
a rising edge of the literal `true` occurs in the first cycle, and folding
takes it for something that never occurs.

* `Pool.course_traces` says that courses are a reading.
* `Compiler.folding_keeps_root` follows a script to the roots of two networks.
* `Compiler.folding_misses_first_edge` is the exception.
-/

namespace SignalNet

open Computing

variable {α : Type} [Scalar α]

/-! ### Courses as a reading -/

/-- What surrounds a network is read cycle by cycle. -/
def Reading.courses (around : Nat → Surroundings α) : Reading α Nat where
  leaf form kind := fun n v =>
    match form with
    | .sensor name _ => v = ((around n).sensors.get? name).getD (.zero kind)
    | .input name => v = ((around n).inputs.get? name).getD (.zero kind)
    | _ => False
  delay initial x := fun n v =>
    match n with
    | 0 => v = initial
    | n + 1 => x n v
  edge rising x := fun n v =>
    match n with
    | 0 => ∃ now, x 0 (.boolean now) ∧ v = .boolean (rising && now)
    | n + 1 => ∃ before now, x n (.boolean before) ∧ x (n + 1) (.boolean now) ∧
        v = .boolean (if rising then now && !before else !now && before)
  delay_mono h n v hv := by
    cases n with
    | zero => exact hv
    | succ n => exact h n v hv
  edge_mono h n v hv := by
    cases n with
    | zero =>
        obtain ⟨now, hnow, hvalue⟩ := hv
        exact ⟨now, h _ _ hnow, hvalue⟩
    | succ n =>
        obtain ⟨before, now, hbefore, hnow, hvalue⟩ := hv
        exact ⟨before, now, h _ _ hbefore, h _ _ hnow, hvalue⟩

omit [Scalar α] in
theorem bind_asBoolean?_eq_some {x : Option (Value α)} {b : Bool} :
    x.bind Value.asBoolean? = some b ↔ x = some (.boolean b) := by
  cases x with
  | none => simp
  | some v => cases v <;> simp [Value.asBoolean?]

theorem Reading.courses_edge {around : Nat → Surroundings α} {rising : Bool} {x : Course α}
    {n : Nat} {v : Value α} :
    (Course.edge rising (fun k => (x k).bind Value.asBoolean?) n).map .boolean = some v ↔
      (Reading.courses around).edge rising (fun k w => x k = some w) n v := by
  cases n with
  | zero =>
      constructor
      · intro h
        obtain ⟨b, hb, rfl⟩ := Option.map_eq_some_iff.mp h
        obtain ⟨now, hnow, rfl⟩ := Option.map_eq_some_iff.mp hb
        exact ⟨now, bind_asBoolean?_eq_some.mp hnow, rfl⟩
      · rintro ⟨now, hnow, rfl⟩
        simp [Course.edge, bind_asBoolean?_eq_some.mpr hnow]
  | succ n =>
      constructor
      · intro h
        obtain ⟨b, hb, rfl⟩ := Option.map_eq_some_iff.mp h
        obtain ⟨before, hbefore, hb⟩ := Option.bind_eq_some_iff.mp hb
        obtain ⟨now, hnow, hb⟩ := Option.bind_eq_some_iff.mp hb
        cases hb
        exact ⟨before, now, bind_asBoolean?_eq_some.mp hbefore,
          bind_asBoolean?_eq_some.mp hnow, rfl⟩
      · rintro ⟨before, now, hbefore, hnow, rfl⟩
        simp [Course.edge, bind_asBoolean?_eq_some.mpr hbefore, bind_asBoolean?_eq_some.mpr hnow]

/-- An edge of a literal occurs in the first cycle at most, if the literal is
true and the edge is rising. -/
theorem Reading.courses_calm {around : Nat → Surroundings α} {rising : Bool} {c : Value α}
    (hc : rising = true → c ≠ .boolean true) :
    ((Reading.courses around).edge rising fun _ w => w = c).Refines
      fun _ v => v = .boolean false := by
  intro n v hv
  cases n with
  | zero =>
      obtain ⟨now, rfl, rfl⟩ := hv
      cases now <;> cases rising <;> simp_all
  | succ n =>
      obtain ⟨before, now, hbefore, hnow, rfl⟩ := hv
      rw [← hnow] at hbefore
      cases hbefore
      cases before <;> cases rising <;> rfl

namespace Pool

/-- On integers and booleans the courses of expressions are a reading. -/
theorem course_traces {p : Pool α} (hp : p.Sane) {σ : Setting α} (hshare : σ.share = id) :
    p.Traces (.courses σ.around) fun id n v => p.course σ id n = some v := by
  constructor
  intro id node hnode n v
  have hdiscrete := hp.discrete.form hnode
  rw [course_eq hp.wellFormed σ hnode]
  by_cases hpure : node.form.isPure = true
  · rw [Form.course_operator (Form.isComposite_of_isPure hpure) (Form.isStateful_of_isPure hpure),
      Form.trace_pure hpure, Option.bind_eq_some_iff]
    refine exists_congr fun args => and_congr_left' ?_
    rw [mapM_some_iff_forall₂, List.forall₂_map_left_iff]
    rfl
  · cases hform : node.form with
    | constant c =>
        simp only [Form.course, Form.trace, hshare, Option.some.injEq, id_eq]
        exact eq_comm
    | sensor name device =>
        simp only [Form.course, Form.trace, Reading.courses, Option.some.injEq]
        exact eq_comm
    | input name =>
        simp only [Form.course, Form.trace, Reading.courses, Option.some.injEq]
        exact eq_comm
    | pre x initial =>
        have hoperands : node.dependencies = [x] := by rw [Node.dependencies, hform]; rfl
        rw [hoperands]
        cases n with
        | zero =>
            simp only [Form.course, List.map_cons, List.map_nil, Course.pre, Option.some.injEq]
            exact eq_comm
        | succ n => exact Iff.rfl
    | edge x rising =>
        have hoperands : node.dependencies = [x] := by rw [Node.dependencies, hform]; rfl
        rw [hoperands]
        exact Reading.courses_edge
    | _ => simp_all [Form.isPure, Form.isLeaf, Form.isStateful, Form.dependencies,
        Form.isDiscrete]

end Pool

/-! ### Networks -/

/-- A literal of a pool of integers and booleans. -/
theorem Program.Constant.discrete {program : Program α} (hp : program.pool.Sane)
    {P : ExprId → Prop} {v : Value α} (h : program.Constant P v) : v.kind.isDiscrete = true := by
  obtain ⟨id, n, -, hn, hv⟩ := h
  have hform := hp.discrete.form hn
  rcases hv with hconstant | ⟨name, hother, -⟩ | ⟨source, target, path, hother, -⟩
  · have hliteral : program.pool.literal? id = some v := by
      simp [Pool.literal?, Pool.form?, hn, hconstant, Form.literal?]
    exact hp.discrete.literal hp.wellFormed hliteral
  · rw [hother] at hform
    cases hform
  · rw [hother] at hform
    cases hform

/-- Constants that are integers or booleans are carried as they are. -/
theorem Session.Grounded.agrees {program : Program α} (hp : program.pool.Sane)
    {P : ExprId → Prop} {s : Session α} (h : Grounded program P s)
    (around : Nat → Surroundings α) :
    Agrees program P s { parameters := program.parameters, host := program.host, around } where
  parameters := rfl
  host := rfl
  share {v q} hv hq := by
    obtain ⟨hcanonical, -, hmakes⟩ := h.carried_spec hq
    rw [Value.eq_of_canonical_eq (hv.discrete hp) hcanonical] at hmakes
    exact hmakes

namespace Compiler

/-- The root of the network of an integer or a boolean carries the course of
the expression. -/
theorem compile_discrete {pool : Pool α} (hp : pool.Sane) {settings : Settings α} {host : Host α}
    {parameters : Parameters α} {id : ExprId} {net : CompiledNet α}
    (hnet : Compiler.compile ⟨.standard, settings⟩ pool host
      { target := .expr id, parameters } = .ok net) {period : α} {x : Nat → Stimulus α} {n : Nat}
    {s₀ s : Simulator α} (hstart : Simulator.start net.fragment period = .ok s₀)
    (hdrive : Simulator.drive x (n + 1) s₀ = .ok s) :
    ∃ v, net.root.bind s.value? = some v ∧
      pool.course { parameters, host, around := .during { period, time := 0 } x } id n =
        some v := by
  obtain ⟨_, hsession⟩ := compile_eq_ok hnet
  have hplain : ∀ {j : ExprId} {m : Node α}, pool.get? j = some m →
      m.form.isPlaceholder = false := by
    intro j m hm
    have hform := hp.discrete.form hm
    cases h : m.form <;> simp_all [Form.isPlaceholder, Form.isDiscrete]
  obtain ⟨session, root, hfaithful, hfragment, hentry, hroot, -⟩ :=
    Session.compile_expr_faithful hp.wellFormed rfl
      ⟨fun hj hm d hd => .operand hj hm hd, fun _ hm => hplain hm⟩ hsession
  rw [← hfragment] at hstart
  obtain ⟨v, hv, hcourse⟩ := hfaithful.run hp.wellFormed
    (hfaithful.toGrounded.agrees hp (.during { period, time := 0 } x)) rfl hstart hdrive hentry
  refine ⟨v, ?_, hcourse⟩
  rw [hroot]
  exact hv

/-- **Folding keeps what networks do.**  Make the same calls on integers and
booleans with folding and without it, and compile the same result of both.
Then the roots of the two networks carry the same value in every cycle that
both of them reach, provided that no rising edge is one of an expression that
folding has made the literal `true`. -/
theorem folding_keeps_root {script : List (Pool.Call Float)}
    (hscript : ∀ c ∈ script, c.isDiscrete = true) {ids ids' : List ExprId} {p q : Pool Float}
    (h : Pool.runScript script [] { folding := true } = .ok ids p)
    (h' : Pool.runScript script [] { folding := false } = .ok ids' q)
    (hedges : ∀ x id, .edge x true ∈ script → ids[x]? = some id →
      p.literal? id ≠ some (.boolean true))
    {k : Nat} {id id' : ExprId} (hid : ids[k]? = some id) (hid' : ids'[k]? = some id')
    {settings : Settings Float} {host : Host Float} {parameters : Parameters Float}
    {net net' : CompiledNet Float}
    (hnet : Compiler.compile ⟨.standard, settings⟩ p host
      { target := .expr id, parameters } = .ok net)
    (hnet' : Compiler.compile ⟨.standard, settings⟩ q host
      { target := .expr id', parameters } = .ok net')
    {period : Float} {x : Nat → Stimulus Float} {n : Nat} {s₀ s s₀' s' : Simulator Float}
    (hstart : Simulator.start net.fragment period = .ok s₀)
    (hstart' : Simulator.start net'.fragment period = .ok s₀')
    (hdrive : Simulator.drive x (n + 1) s₀ = .ok s)
    (hdrive' : Simulator.drive x (n + 1) s₀' = .ok s') :
    ∃ v, net.root.bind s.value? = some v ∧ net'.root.bind s'.value? = some v := by
  obtain ⟨hp, -, -⟩ := Pool.runScript_tidy hscript (Pool.sane_empty true) h
  obtain ⟨hq, -, -⟩ := Pool.runScript_tidy hscript (Pool.sane_empty false) h'
  obtain ⟨v, hv, hcourse⟩ := compile_discrete hp hnet hstart hdrive
  obtain ⟨v', hv', hcourse'⟩ := compile_discrete hq hnet' hstart' hdrive'
  let σ : Setting Float := { parameters, host, around := .during { period, time := 0 } x }
  have hcalm : Pool.CalmScript (Reading.courses σ.around) script ids p := by
    intro y rising j hmem hj c hc
    refine Reading.courses_calm ?_
    rintro rfl rfl
    exact hedges y j hmem hj hc
  have hpairs := Pool.runScript_refines Double.signLaws hscript h h'
    (Pool.course_traces hp (σ := σ) rfl) (Pool.course_traces hq (σ := σ) rfl) hcalm
  have hrefined : p.course σ id n = some v' :=
    Pool.pair_of_getElem? hpairs hid hid' n v' hcourse'
  have hsame : v = v' := Option.some.inj (hcourse.symm.trans hrefined)
  subst hsame
  exact ⟨v, hv, hv'⟩

/-- What the root of the last result of a script carries after some cycles. -/
def scriptRoot? (script : List (Pool.Call α)) (folding : Bool) (period : α)
    (x : Nat → Stimulus α) (n : Nat) : Option (Value α) :=
  match Pool.runScript script [] { folding } with
  | .error _ _ => none
  | .ok ids p => ids.getLast?.bind fun id =>
    rootAfter? ⟨.standard, .standard⟩ p .offline { target := .expr id } period x n

theorem scriptRoot?_eq_some {script : List (Pool.Call α)} {folding : Bool} {period : α}
    {x : Nat → Stimulus α} {n : Nat} {v : Value α}
    (h : scriptRoot? script folding period x n = some v) :
    ∃ ids p id net s₀ s, Pool.runScript script [] { folding } = .ok ids p ∧
      ids[script.length - 1]? = some id ∧
      Compiler.compile ⟨.standard, .standard⟩ p .offline { target := .expr id } = .ok net ∧
      Simulator.start net.fragment period = .ok s₀ ∧ Simulator.drive x n s₀ = .ok s ∧
      net.root.bind s.value? = some v := by
  unfold scriptRoot? at h
  cases hrun : Pool.runScript script [] { folding } with
  | error e p => simp [hrun] at h
  | ok ids p =>
      simp only [hrun] at h
      obtain ⟨id, hid, hroot⟩ := Option.bind_eq_some_iff.mp h
      obtain ⟨net, s₀, s, hnet, hstart, hdrive, hvalue⟩ := rootAfter?_eq_some hroot
      rw [List.getLast?_eq_getElem?, Pool.runScript_length hrun, List.length_nil,
        Nat.zero_add] at hid
      exact ⟨ids, p, id, net, s₀, s, rfl, hid, hnet, hstart, hdrive, hvalue⟩

end Compiler

/-- Calls that folding answers with fewer blocks: a sum is put together from
literals, and chosen while a button has just been pressed. -/
def Sample.pressed : List (Pool.Call Float) :=
  [.input "button" .boolean .global, .edge 0 true, .sensor "n" .integer,
    .constant (.integer 2), .binary .add 3 2, .constant (.integer 3), .binary .add 4 5,
    .pre 6 (.integer 1), .select 1 6 7]

theorem Compiler.pressed_keeps_root :
    ∃ v, scriptRoot? Sample.pressed true 1
        (fun _ => { inputs := [("button", .boolean true)] }) 2 = some v ∧
      scriptRoot? Sample.pressed false 1
        (fun _ => { inputs := [("button", .boolean true)] }) 2 = some v := by
  have hok : (scriptRoot? Sample.pressed true 1
      (fun _ => { inputs := [("button", .boolean true)] }) 2).isSome = true := by decide +kernel
  have hok' : (scriptRoot? Sample.pressed false 1
      (fun _ => { inputs := [("button", .boolean true)] }) 2).isSome = true := by decide +kernel
  have hbutton : (match Pool.runScript Sample.pressed [] { folding := true } with
      | .ok ids p => (ids[0]?.bind p.literal?).isNone
      | .error _ _ => false) = true := by decide +kernel
  obtain ⟨w, hw⟩ := Option.isSome_iff_exists.mp hok
  obtain ⟨w', hw'⟩ := Option.isSome_iff_exists.mp hok'
  obtain ⟨ids, p, id, net, s₀, s, h, hid, hnet, hstart, hdrive, hvalue⟩ := scriptRoot?_eq_some hw
  obtain ⟨ids', q, id', net', s₀', s', h', hid', hnet', hstart', hdrive', hvalue'⟩ :=
    scriptRoot?_eq_some hw'
  rw [h] at hbutton
  obtain ⟨v, hv, hv'⟩ := folding_keeps_root (by decide) h h' (by
    intro x j hmem hj hliteral
    obtain rfl : x = 0 := by simpa [Sample.pressed] using hmem
    simp [hj, hliteral] at hbutton) hid hid' hnet hnet' hstart hstart' hdrive hdrive'
  rw [hvalue] at hv
  rw [hvalue'] at hv'
  exact ⟨v, hw.trans hv, hw'.trans hv'⟩

/-- The rising edge of the literal `true`. -/
def Sample.switchedOn : List (Pool.Call Float) :=
  [.constant (.boolean true), .edge 0 true]

/-- Folding misses an edge in the first cycle: without folding the edge
detector sees `true` after the `false` that it starts with. -/
theorem Compiler.folding_misses_first_edge :
    scriptRoot? Sample.switchedOn true 1 (fun _ => {}) 1 = some (.boolean false) ∧
      scriptRoot? Sample.switchedOn false 1 (fun _ => {}) 1 = some (.boolean true) := by
  constructor <;> decide +kernel

end SignalNet
