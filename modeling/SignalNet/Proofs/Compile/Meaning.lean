import SignalNet.Proofs.Compile.Representation
import SignalNet.Scalar.Double

/-!
# Networks compute the courses of expressions

The network of an expression computes the course of the expression
(`SignalNet.Proofs.Pool.Course`), cycle after cycle:

* `Form.course_of_react` is the step for one block.  A block that remembers
  what the course of its form recalls puts out the next value of the course,
  and remembers what the next cycle needs;
* `Session.Follows.step` is the step for one cycle of a network that
  represents expressions;
* `Session.Depicts.run` is the result for whole runs.

Constants are carried up to structural equality, as the session shares their
blocks.  `Compiler.compile_expr_computes` says so for a compiled expression,
and `Compiler.computes_fails_for_signed_zeros` shows that it has to.
-/

namespace SignalNet

open Computing

variable {α : Type} [Scalar α]

/-! ### One block -/

omit [Scalar α] in
/-- Only delays become delays. -/
theorem Form.eq_pre_of_isDelay {form : Form α} {parameters : Parameters α}
    {primitive : Primitive α} (hprimitive : form.primitive? parameters = some primitive)
    (hdelay : primitive.isDelay = true) : ∃ x initial, form = .pre x initial := by
  cases form with
  | pre x initial => exact ⟨x, initial, rfl⟩
  | persisted handle =>
      obtain ⟨slot, -, rfl⟩ := Option.map_eq_some_iff.mp hprimitive
      cases hdelay
  | _ => cases hprimitive <;> cases hdelay

/-- What the block of a form remembers after `n` cycles, if its operands
follow the given courses. -/
def Form.Recalls (σ : Setting α) (form : Form α) (operands : List (Course α)) :
    Nat → Option (Memory α) → Prop
  | 0, memory => memory = none
  | n + 1, memory =>
    match form, operands with
    | .smooth _ tau, [x] => ∃ y, memory = some (.filter y) ∧
        Course.smooth (fun k => Scalar.minNum ((σ.around k).period / tau) 1)
          (fun k => (x k).bind Value.asDouble?) n = some y
    | .rateLimit _ rate, [x] => ∃ y, memory = some (.filter y) ∧
        Course.rateLimit (fun k => rate * (σ.around k).period)
          (fun k => (x k).bind Value.asDouble?) n = some y
    | .pre _ _, [x] => ∃ v, memory = some (.delay v) ∧ x n = some v
    | .edge _ _, [x] => ∃ b, memory = some (.edge b) ∧ (x n).bind Value.asBoolean? = some b
    | _, _ => True

section Stateful

variable {σ : Setting α} {kind : Kind} {memory m : Option (Memory α)} {operands : List (Course α)}
  {args : List (Value α)} {v : Value α} {n : Nat}

/-- One cycle of a low pass. -/
theorem Form.smooth_of_react {x : ExprId} {tau : α}
    (hoperands : List.Forall₂ (fun (operand : Course α) w => operand n = some w) operands args)
    (hrecalls : (Form.smooth x tau).Recalls σ operands n memory)
    (h : (Primitive.smooth tau).react (σ.around n) kind memory args = .ok (v, m)) :
    (Form.smooth x tau).course σ kind operands n = some v ∧
      (Form.smooth x tau).Recalls σ operands (n + 1) (m.or memory) := by
  match args, h with
  | [.double a], h =>
      obtain ⟨operand, rfl, hoperand⟩ := forall₂_singleton_right hoperands
      cases h
      cases n with
      | zero =>
          obtain rfl : memory = none := hrecalls
          have hstart : Course.smooth (fun k => Scalar.minNum ((σ.around k).period / tau) 1)
              (fun k => (operand k).bind Value.asDouble?) 0 = some a := by
            simp [Course.smooth, hoperand, Value.asDouble?]
          exact ⟨by simp [course, hstart, smoothed], a, rfl, hstart⟩
      | succ n =>
          obtain ⟨y, rfl, hy⟩ := hrecalls
          have hnext : Course.smooth (fun k => Scalar.minNum ((σ.around k).period / tau) 1)
              (fun k => (operand k).bind Value.asDouble?) (n + 1) =
              some (y + (a - y) * Scalar.minNum ((σ.around (n + 1)).period / tau) 1) := by
            simp [Course.smooth, hy, hoperand, Value.asDouble?]
          exact ⟨by simp [course, hnext, smoothed], _, rfl, hnext⟩

/-- One cycle of a rate limiter, which has a range to keep to. -/
theorem Form.rateLimit_of_react {x : ExprId} {rate : α}
    (hoperands : List.Forall₂ (fun (operand : Course α) w => operand n = some w) operands args)
    (hrecalls : (Form.rateLimit x rate).Recalls σ operands n memory)
    (h : (Primitive.rateLimit rate).react (σ.around n) kind memory args = .ok (v, m)) :
    (Form.rateLimit x rate).course σ kind operands n = some v ∧
      (Form.rateLimit x rate).Recalls σ operands (n + 1) (m.or memory) := by
  match args, h with
  | [.double a], h =>
      obtain ⟨operand, rfl, hoperand⟩ := forall₂_singleton_right hoperands
      cases n with
      | zero =>
          obtain rfl : memory = none := hrecalls
          cases h
          have hstart : Course.rateLimit (fun k => rate * (σ.around k).period)
              (fun k => (operand k).bind Value.asDouble?) 0 = some a := by
            simp [Course.rateLimit, hoperand, Value.asDouble?]
          exact ⟨by simp [course, hstart], a, rfl, hstart⟩
      | succ n =>
          obtain ⟨y, rfl, hy⟩ := hrecalls
          obtain ⟨z, hz, h⟩ := except_bind_eq_ok.mp h
          cases h
          by_cases hrange : Scalar.le (-(rate * (σ.around (n + 1)).period))
              (rate * (σ.around (n + 1)).period) = true
          · rw [rateLimited, if_pos hrange] at hz
            cases hz
            have hnext : Course.rateLimit (fun k => rate * (σ.around k).period)
                (fun k => (operand k).bind Value.asDouble?) (n + 1) =
                some (y + clampChange (rate * (σ.around (n + 1)).period) (a - y)) := by
              simp [Course.rateLimit, hy, hoperand, Value.asDouble?, hrange]
            exact ⟨by simp [course, hnext], _, rfl, hnext⟩
          · rw [rateLimited, if_neg hrange] at hz
            cases hz

/-- One cycle of an edge detector. -/
theorem Form.edge_of_react {x : ExprId} {rising : Bool}
    (hoperands : List.Forall₂ (fun (operand : Course α) w => operand n = some w) operands args)
    (hrecalls : (Form.edge x rising).Recalls σ operands n memory)
    (h : (Primitive.edge rising).react (σ.around n) kind memory args = .ok (v, m)) :
    (Form.edge x rising).course σ kind operands n = some v ∧
      (Form.edge x rising).Recalls σ operands (n + 1) (m.or memory) := by
  match args, h with
  | [.boolean now], h =>
      obtain ⟨operand, rfl, hoperand⟩ := forall₂_singleton_right hoperands
      cases h
      have hnow : (operand n).bind Value.asBoolean? = some now := by
        rw [hoperand]
        rfl
      refine ⟨?_, now, rfl, hnow⟩
      cases n with
      | zero =>
          obtain rfl : memory = none := hrecalls
          cases rising <;> simp [course, Course.edge, hnow, hasEdge]
      | succ n =>
          obtain ⟨b, rfl, hb⟩ := hrecalls
          simp [course, Course.edge, hb, hnow, hasEdge]

/-- **One block in one cycle.**  A block that has followed the course of its
form for `n` cycles puts out the value of the course, and goes on to follow
it. -/
theorem Form.course_of_react {form : Form α} {primitive : Primitive α}
    (hprimitive : form.primitive? σ.parameters = some primitive)
    (hdelay : primitive.isDelay = false)
    (hoperands : List.Forall₂ (fun (operand : Course α) w => operand n = some w) operands args)
    (hrecalls : form.Recalls σ operands n memory)
    (h : primitive.react (σ.around n) kind memory args = .ok (v, m)) :
    form.course σ kind operands n = some v ∧ form.Recalls σ operands (n + 1) (m.or memory) := by
  have hoperator : form.isComposite = true → form.isStateful = false →
      form.course σ kind operands n = some v := by
    intro hcomposite hstate
    rw [react_eq hcomposite hstate hprimitive] at h
    rw [course_operator hcomposite hstate, mapM_some_iff_forall₂.mpr hoperands]
    exact (operator_eq_ok.mp h).1
  cases form with
  | sensor name device | input name =>
      cases hprimitive
      match args, h with
      | [], h =>
          cases h
          exact ⟨rfl, trivial⟩
  | clock signal =>
      cases hprimitive
      cases signal
      all_goals
        match args, h with
        | [], h =>
            cases h
            exact ⟨rfl, trivial⟩
  | persisted handle =>
      obtain ⟨slot, hslot, rfl⟩ := Option.map_eq_some_iff.mp hprimitive
      match args, h with
      | [], h =>
          cases h
          refine ⟨?_, trivial⟩
          simp only [course, hslot, Option.map_some]
  | smooth x tau =>
      cases hprimitive
      exact smooth_of_react hoperands hrecalls h
  | rateLimit x rate =>
      cases hprimitive
      exact rateLimit_of_react hoperands hrecalls h
  | edge x rising =>
      cases hprimitive
      exact edge_of_react hoperands hrecalls h
  | pre x initial =>
      cases hprimitive
      cases hdelay
  | unary op x => exact ⟨hoperator rfl rfl, trivial⟩
  | binary op x y => exact ⟨hoperator rfl rfl, trivial⟩
  | compare op x y => exact ⟨hoperator rfl rfl, trivial⟩
  | select c t f => exact ⟨hoperator rfl rfl, trivial⟩
  | limit x lo hi => exact ⟨hoperator rfl rfl, trivial⟩
  | index x position => exact ⟨hoperator rfl rfl, trivial⟩
  | pack parts => exact ⟨hoperator rfl rfl, trivial⟩
  | compose c parts => exact ⟨hoperator rfl rfl, trivial⟩
  | constant v => cases hprimitive
  | parameter name => cases hprimitive
  | relation source target => cases hprimitive
  | placeholder number label => cases hprimitive
  | custom c => cases hprimitive

end Stateful

/-! ### One cycle of the network -/

namespace Session

variable {program : Program α} {P : ExprId → Prop} {s : Session α} {σ : Setting α}

/-- A network is in step with a setting: both know the same parameters and the
same host, and the blocks of constants hold what the setting says. -/
structure Agrees (program : Program α) (P : ExprId → Prop) (s : Session α) (σ : Setting α) :
    Prop where
  parameters : σ.parameters = program.parameters
  host : σ.host = program.host
  share : ∀ {v : Value α} {q : PortId}, program.Constant P v →
    s.constants.get? v.canonical = some q →
    ∃ kind, s.fragment.Makes q (.constant (σ.share v)) [] kind

section Cycle

variable {sim sim' : Simulator α} {n : Nat}

theorem HopAt.value {q : PortId} {hop : Hop α} (hf : s.fragment.WellFormed)
    (hagrees : Agrees program P s σ) (hcycle : Simulator.Cycle sim sim')
    (hfragment : sim.fragment = s.fragment) (haround : sim.around = σ.around n)
    (hfixed : ∀ pose, hop = .fixed pose → program.Constant P (.transform pose))
    (h : s.HopAt q hop) : ∃ v, sim'.value? q = some v ∧ σ.hop n hop = some v := by
  rw [← hfragment] at hf
  match hop, h with
  | .fixed pose, h =>
      obtain ⟨kind, hmakes⟩ := hagrees.share (hfixed pose rfl) h
      rw [← hfragment] at hmakes
      exact ⟨_, hcycle.constant hf hmakes, rfl⟩
  | .measured sensor device false, h =>
      have hmakes : s.fragment.Makes q (.sensor sensor device) [] .transform := h
      rw [← hfragment] at hmakes
      obtain ⟨args, v, m, memory, hargs, hreact, hvalue⟩ := hcycle.makes hf hmakes rfl
      cases hargs
      cases hreact
      rw [haround] at hvalue
      exact ⟨_, hvalue, rfl⟩
  | .measured sensor device true, ⟨measured, hmeasured, hinvert⟩ =>
      rw [← hfragment] at hmeasured hinvert
      obtain ⟨args, v, m, memory, hargs, hreact, hvalue⟩ := hcycle.makes hf hmeasured rfl
      cases hargs
      cases hreact
      rw [haround] at hvalue
      obtain ⟨args, w, m', memory', hargs', hreact', hvalue'⟩ := hcycle.makes hf hinvert rfl
      match args, hargs', hreact' with
      | [a], .cons ha .nil, hreact' =>
          rw [hvalue] at ha
          cases ha
          refine ⟨w, hvalue', ?_⟩
          exact (operator_eq_ok.mp hreact').1

theorem AlongAt.value {q before : PortId} {hops : List (Hop α)} (hf : s.fragment.WellFormed)
    (hagrees : Agrees program P s σ) (hcycle : Simulator.Cycle sim sim')
    (hfragment : sim.fragment = s.fragment) (haround : sim.around = σ.around n)
    (hfixed : ∀ pose, .fixed pose ∈ hops → program.Constant P (.transform pose))
    {motion : Value α} (hbefore : sim'.value? before = some motion)
    (h : s.AlongAt q before hops) :
    ∃ v, sim'.value? q = some v ∧ σ.along n motion hops = some v := by
  induction hops generalizing before motion with
  | nil =>
      obtain rfl : q = before := h
      exact ⟨motion, hbefore, rfl⟩
  | cons hop rest ih =>
      obtain ⟨port, product, hhop, hproduct, hrest⟩ := h
      obtain ⟨w, hw, hhopValue⟩ := hhop.value hf hagrees hcycle hfragment haround
        fun pose hpose => hfixed pose (by simp [hpose])
      rw [← hfragment] at hproduct
      obtain ⟨args, u, m, memory, hargs, hreact, hvalue⟩ :=
        hcycle.makes (by rw [hfragment]; exact hf) hproduct rfl
      match args, hargs, hreact with
      | [a, c], .cons ha (.cons hc .nil), hreact =>
          rw [hbefore] at ha
          cases ha
          rw [hw] at hc
          cases hc
          obtain ⟨v, hv, halong⟩ :=
            ih (fun pose hpose => hfixed pose (by simp [hpose])) hvalue hrest
          refine ⟨v, hv, ?_⟩
          rw [Setting.along, hhopValue]
          show (BinaryOp.mul.eval? motion w).bind (fun product => σ.along n product rest) = some v
          rw [(operator_eq_ok.mp hreact).1]
          exact halong

theorem MotionAt.value {q : PortId} {path : List (Hop α)} (hf : s.fragment.WellFormed)
    (hagrees : Agrees program P s σ) (hcycle : Simulator.Cycle sim sim')
    (hfragment : sim.fragment = s.fragment) (haround : sim.around = σ.around n)
    (hidentity : path = [] → program.Constant P (.transform .identity))
    (hfixed : ∀ pose, .fixed pose ∈ path → program.Constant P (.transform pose))
    (h : s.MotionAt q path) : ∃ v, sim'.value? q = some v ∧ σ.motion n path = some v := by
  cases path with
  | nil =>
      obtain ⟨kind, hmakes⟩ := hagrees.share (hidentity rfl) h
      rw [← hfragment] at hmakes
      exact ⟨_, hcycle.constant (by rw [hfragment]; exact hf) hmakes, rfl⟩
  | cons hop rest =>
      obtain ⟨first, hfirst, hrest⟩ := h
      obtain ⟨w, hw, hhop⟩ := hfirst.value hf hagrees hcycle hfragment haround
        fun pose hpose => hfixed pose (by simp [hpose])
      obtain ⟨v, hv, halong⟩ := hrest.value hf hagrees hcycle hfragment haround
        (fun pose hpose => hfixed pose (by simp [hpose])) hw
      refine ⟨v, hv, ?_⟩
      simp only [Setting.motion, hhop]
      exact halong

/-- After `n` cycles the blocks of the expressions of `P` remember what the
courses of these demand. -/
structure Follows (program : Program α) (P : ExprId → Prop) (s : Session α) (σ : Setting α)
    (n : Nat) (sim : Simulator α) : Prop where
  fragment : sim.fragment = s.fragment
  schedule : sim.fragment.Schedules sim.order
  recalls : ∀ {id : ExprId} {q : PortId} {node : Node α} {primitive : Primitive α}
    {sources : List PortId} {b : BlockId} {blk : Block α}, P id → s.lowered.get? id = some q →
    program.pool.get? id = some node →
    node.form.primitive? program.parameters = some primitive →
    s.fragment.Produces q primitive sources node.kind b blk →
    node.form.Recalls σ (node.dependencies.map (program.pool.course σ)) n (sim.memories.get? b)

/-- The operands of an expression carry the values of their courses. -/
theorem operands_carry {ids : List ExprId} {sources : List PortId} {args : List (Value α)}
    (hsources : List.Forall₂ (fun d source => s.lowered.get? d = some source) ids sources)
    (hargs : List.Forall₂ (fun source a => sim'.value? source = some a) sources args)
    (hvalues : ∀ d ∈ ids, ∀ {q : PortId}, s.lowered.get? d = some q →
      ∃ v, sim'.value? q = some v ∧ program.pool.course σ d n = some v) :
    List.Forall₂ (fun (operand : Course α) v => operand n = some v)
      (ids.map (program.pool.course σ)) args := by
  induction hsources generalizing args with
  | nil =>
      cases hargs
      exact List.Forall₂.nil
  | @cons d source ids sources hd _ ih =>
      cases hargs with
      | cons ha hrest =>
          obtain ⟨v, hv, hcourse⟩ := hvalues d (by simp) hd
          rw [ha] at hv
          cases hv
          exact List.Forall₂.cons hcourse (ih hrest fun e he => hvalues e (by simp [he]))

/-- The block of an expression in one cycle, if its operands carry the values
of their courses: it puts out the value of its own course, and remembers what
the next cycle demands. -/
theorem Follows.block {id : ExprId} {q : PortId} {node : Node α} {primitive : Primitive α}
    {sources : List PortId} {b : BlockId} {blk : Block α} (hp : program.pool.WellFormed)
    (hf : s.fragment.WellFormed) (hagrees : Agrees program P s σ)
    (hfollows : Follows program P s σ n sim) (haround : sim.around = σ.around n)
    (hcycle : Simulator.Cycle sim sim') (hid : P id) (hentry : s.lowered.get? id = some q)
    (hnode : program.pool.get? id = some node)
    (hform : node.form.primitive? program.parameters = some primitive)
    (hproduces : s.fragment.Produces q primitive sources node.kind b blk)
    (hsources : List.Forall₂ (fun d source => s.lowered.get? d = some source)
      node.dependencies sources)
    (hvalues : ∀ d ∈ node.dependencies, ∀ {r : PortId}, s.lowered.get? d = some r →
      ∃ v, sim'.value? r = some v ∧ program.pool.course σ d n = some v) :
    (∃ v, sim'.value? q = some v ∧ program.pool.course σ id n = some v) ∧
      node.form.Recalls σ (node.dependencies.map (program.pool.course σ)) (n + 1)
        (sim'.memories.get? b) := by
  have hrecalls := hfollows.recalls hid hentry hnode hform hproduces
  have hf' : sim.fragment.WellFormed := by
    rw [hfollows.fragment]
    exact hf
  rw [← hfollows.fragment] at hproduces
  rw [Pool.course_eq hp σ hnode]
  by_cases hdelay : primitive.isDelay = true
  · -- A delay puts out what it remembers and remembers its operand.
    obtain ⟨x, initial, hpre⟩ := Form.eq_pre_of_isDelay hform hdelay
    rw [hpre] at hform
    cases hform
    obtain ⟨v, hargs, hvalue, hmemory⟩ := hcycle.produces_delay hproduces
    have hoperands := operands_carry hsources hargs hvalues
    have hdependencies : node.dependencies = [x] := by
      rw [Node.dependencies, hpre]
      rfl
    rw [hpre, hdependencies] at hrecalls ⊢
    rw [hdependencies] at hoperands
    obtain ⟨hx, -⟩ := List.forall₂_cons.mp hoperands
    refine ⟨⟨_, hvalue, ?_⟩, v, hmemory, hx⟩
    cases n with
    | zero =>
        have hnone : sim.memories.get? b = none := hrecalls
        simp [Form.course, Course.pre, Simulator.delayed, hnone]
    | succ n =>
        obtain ⟨w, hw, hxw⟩ := hrecalls
        simp [Form.course, Course.pre, Simulator.delayed, hw, hxw]
  · have hno : primitive.isDelay = false := by simpa using hdelay
    obtain ⟨args, v, m, hargs, hreact, hvalue, hmemory⟩ := hcycle.produces hf' hproduces hno
    rw [haround] at hreact
    rw [← hagrees.parameters] at hform
    obtain ⟨hcourse, hnext⟩ :=
      Form.course_of_react hform hno (operands_carry hsources hargs hvalues) hrecalls hreact
    rw [hmemory]
    exact ⟨⟨v, hvalue, hcourse⟩, hnext⟩

/-- In a cycle every entered expression of `P` gets the value of its course. -/
theorem Follows.values (hp : program.pool.WellFormed) (hdepicts : Depicts program P s)
    (hagrees : Agrees program P s σ) (hfollows : Follows program P s σ n sim)
    (haround : sim.around = σ.around n) (hcycle : Simulator.Cycle sim sim') :
    ∀ {id : ExprId} {q : PortId}, P id → s.lowered.get? id = some q →
      ∃ v, sim'.value? q = some v ∧ program.pool.course σ id n = some v := by
  intro id
  have hf := hdepicts.wellFormed
  have hconstant : ∀ {v : Value α} {q : PortId}, program.Constant P v →
      s.constants.get? v.canonical = some q → sim'.value? q = some (σ.share v) := by
    intro v q hv hport
    obtain ⟨kind, hmakes⟩ := hagrees.share hv hport
    rw [← hfollows.fragment] at hmakes hf
    exact hcycle.constant hf hmakes
  -- Operands stand before the expressions that use them.
  induction id using Nat.strongRecOn with
  | ind id ih =>
      intro q hid hentry
      obtain ⟨node, hnode, hrepresents, hoperands⟩ := hdepicts.entries hid hentry
      cases hrepresents with
      | constant hform hport =>
          refine ⟨_, hconstant ⟨id, node, hid, hnode, Or.inl hform⟩ hport, ?_⟩
          rw [Pool.course_eq hp σ hnode, hform]
          rfl
      | parameter hform hvalue hport =>
          refine ⟨_, hconstant ⟨id, node, hid, hnode, Or.inr (Or.inl ⟨_, hform, hvalue⟩)⟩ hport, ?_⟩
          rw [Pool.course_eq hp σ hnode, hform]
          simp only [Form.course, hagrees.parameters, hvalue, Option.map_some]
      | @relation source target path hform hpath hport =>
          have hidentity : path = [] → program.Constant P (.transform .identity) :=
            fun hnil => ⟨id, node, hid, hnode,
              Or.inr (Or.inr ⟨source, target, path, hform, hpath, Or.inl ⟨hnil, rfl⟩⟩)⟩
          have hfixed : ∀ pose, .fixed pose ∈ path → program.Constant P (.transform pose) :=
            fun pose hpose => ⟨id, node, hid, hnode,
              Or.inr (Or.inr ⟨source, target, path, hform, hpath, Or.inr ⟨pose, hpose, rfl⟩⟩)⟩
          obtain ⟨v, hv, hmotion⟩ := hport.value hf hagrees hcycle hfollows.fragment haround
            hidentity hfixed
          refine ⟨v, hv, ?_⟩
          rw [Pool.course_eq hp σ hnode, hform]
          simp only [Form.course, hagrees.host, hpath, Option.bind_some]
          exact hmotion
      | block hform hproduces hsources =>
          exact (hfollows.block hp hf hagrees haround hcycle hid hentry hnode hform hproduces
            hsources fun d hd => ih d (hp.before hnode d hd) (hoperands d hd)).1

/-- **One cycle of the network.**  A network in step with the courses is in
step with them one cycle later. -/
theorem Follows.step (hp : program.pool.WellFormed) (hdepicts : Depicts program P s)
    (hagrees : Agrees program P s σ) (hfollows : Follows program P s σ n sim)
    (haround : sim.around = σ.around n) (hcycle : Simulator.Cycle sim sim') :
    Follows program P s σ (n + 1) sim' := by
  refine ⟨hcycle.fragment.trans hfollows.fragment, ?_, ?_⟩
  · rw [hcycle.fragment, hcycle.order]
    exact hfollows.schedule
  · intro id q node primitive sources b blk hid hentry hnode hform hproduces
    obtain ⟨node', hnode', hrepresents, hoperands⟩ := hdepicts.entries hid hentry
    rw [hnode] at hnode'
    cases hnode'
    cases hrepresents with
    | constant hconstant _ => simp [hconstant, Form.primitive?] at hform
    | parameter hparameter _ _ => simp [hparameter, Form.primitive?] at hform
    | relation hrelation _ _ => simp [hrelation, Form.primitive?] at hform
    | block _ hproduces' hsources =>
        obtain ⟨-, -, rfl⟩ := hproduces.unique hproduces'
        exact (hfollows.block hp hdepicts.wellFormed hagrees haround hcycle hid hentry hnode hform
          hproduces hsources fun d hd =>
            hfollows.values hp hdepicts hagrees haround hcycle (hoperands d hd)).2

end Cycle

/-! ### Whole runs -/

/-- A stimulus does not bring a network out of step. -/
theorem Follows.feed {sim : Simulator α} {n : Nat} (h : Follows program P s σ n sim)
    (x : Stimulus α) : Follows program P s σ n (sim.feed x) := by
  rw [Simulator.feed_eq]
  exact ⟨h.fragment, h.schedule, h.recalls⟩

/-- A network that has just been started is in step with all courses. -/
theorem follows_start (hf : s.fragment.WellFormed) {period : α} {sim : Simulator α}
    (h : Simulator.start s.fragment period = .ok sim) : Follows program P s σ 0 sim := by
  obtain ⟨horder, -, hsim⟩ := Simulator.start_eq_ok h
  have hfragment : sim.fragment = s.fragment := by rw [hsim]
  refine ⟨hfragment, ?_, ?_⟩
  · rw [hfragment]
    exact Fragment.schedules_of_evaluationOrder hf horder
  · intro id q node primitive sources b blk _ _ _ _ _
    show sim.memories.get? b = none
    rw [hsim]
    rfl

/-- **A run of the network.**  As long as no cycle fails, every entered
expression of `P` has in every cycle the value of its course, where the setting
is what the network sees. -/
theorem Depicts.run (hp : program.pool.WellFormed) (hdepicts : Depicts program P s)
    (hagrees : Agrees program P s σ) {period : α} {x : Nat → Stimulus α}
    {sim₀ sim : Simulator α} {n : Nat} (hstart : Simulator.start s.fragment period = .ok sim₀)
    (haround : ∀ {k : Nat} {before : Simulator α}, Simulator.drive x k sim₀ = .ok before →
      (before.feed (x k)).around = σ.around k)
    (hdrive : Simulator.drive x (n + 1) sim₀ = .ok sim) {id : ExprId} {q : PortId} (hid : P id)
    (hentry : s.lowered.get? id = some q) :
    ∃ v, sim.value? q = some v ∧ program.pool.course σ id n = some v := by
  have hcycle : ∀ {k : Nat} {before after : Simulator α}, Follows program P s σ k before →
      Simulator.step (before.feed (x k)) = .ok () after →
      Simulator.Cycle (before.feed (x k)) after := by
    intro k before after hfollows hstep
    refine Simulator.step_eq_ok ?_ (hfollows.feed (x k)).schedule hstep
    rw [(hfollows.feed (x k)).fragment]
    exact hdepicts.wellFormed
  have hfollows : ∀ {k : Nat} {before : Simulator α}, Simulator.drive x k sim₀ = .ok before →
      Follows program P s σ k before := by
    intro k
    induction k with
    | zero =>
        intro before hzero
        cases hzero
        exact follows_start hdepicts.wellFormed hstart
    | succ k ih =>
        intro after hsucc
        obtain ⟨before, hbefore, hstep⟩ := Simulator.drive_succ_eq_ok.mp hsucc
        exact ((ih hbefore).feed (x k)).step hp hdepicts hagrees (haround hbefore)
          (hcycle (ih hbefore) hstep)
  obtain ⟨before, hbefore, hstep⟩ := Simulator.drive_succ_eq_ok.mp hdrive
  exact ((hfollows hbefore).feed (x n)).values hp hdepicts hagrees (haround hbefore)
    (hcycle (hfollows hbefore) hstep) hid hentry

/-- A network without sinks sees its stimuli, and nothing else. -/
theorem Faithful.run (hp : program.pool.WellFormed) (hfaithful : Faithful program P s)
    (hagrees : Agrees program P s σ) {period : α} {x : Nat → Stimulus α}
    (haround : σ.around = Surroundings.during { period, time := 0 } x)
    {sim₀ sim : Simulator α} {n : Nat} (hstart : Simulator.start s.fragment period = .ok sim₀)
    (hdrive : Simulator.drive x (n + 1) sim₀ = .ok sim) {id : ExprId} {q : PortId}
    (hentry : s.lowered.get? id = some q) :
    ∃ v, sim.value? q = some v ∧ program.pool.course σ id n = some v := by
  obtain ⟨horder, -, hsim₀⟩ := Simulator.start_eq_ok hstart
  have hf₀ : sim₀.fragment = s.fragment := by rw [hsim₀]
  have haround₀ : sim₀.around = { period, time := 0 } := by rw [hsim₀]
  have hwell : sim₀.fragment.WellFormed := by
    rw [hf₀]
    exact hfaithful.wellFormed
  have hschedule : sim₀.fragment.Schedules sim₀.order := by
    rw [hf₀]
    exact Fragment.schedules_of_evaluationOrder hfaithful.wellFormed horder
  have hsinks : ∀ {b : BlockId} {blk : Block α}, sim₀.fragment.blocks[b]? = some blk →
      blk.primitive.isSink = false := by
    intro b blk hb
    rw [hf₀] at hb
    obtain ⟨r, hr⟩ := hfaithful.outputs hb
    rw [hfaithful.wellFormed.sink hb, hr]
    rfl
  refine hfaithful.depicts.run hp hagrees hstart ?_ hdrive (hfaithful.entries hentry).1 hentry
  intro k before hbefore
  rw [Simulator.drive_around hwell hschedule hsinks hbefore, haround₀, haround]

/-- The constant that a session carries for a value: the one in the block that
structurally equal constants share. -/
def carried (s : Session α) (v : Value α) : Value α :=
  ((s.constants.get? v.canonical).bind s.fragment.constantAt?).getD v

theorem carried_eq {v w : Value α} {q : PortId} (hq : s.constants.get? v.canonical = some q)
    (hw : s.fragment.constantAt? q = some w) : s.carried v = w := by
  simp [carried, hq, hw]

theorem Grounded.carried_spec (h : Grounded program P s) {v : Value α} {q : PortId}
    (hq : s.constants.get? v.canonical = some q) :
    (s.carried v).canonical = v.canonical ∧ program.Constant P (s.carried v) ∧
      ∃ kind, s.fragment.Makes q (.constant (s.carried v)) [] kind := by
  obtain ⟨w, hw, hconstant, hmakes⟩ := h.constants hq
  rw [carried_eq hq hmakes.constantAt?]
  exact ⟨hw, hconstant, _, hmakes⟩

theorem carried_of_none {v : Value α} (hq : s.constants.get? v.canonical = none) :
    s.carried v = v := by
  simp [carried, hq]

end Session

/-- In every cycle of every run, as long as no cycle fails, the root of the
network carries the value of the course of an expression, where constants are
carried as `share` says. -/
def CompiledNet.Computes (net : CompiledNet α) (program : Program α)
    (share : Value α → Value α) (id : ExprId) : Prop :=
  ∃ root, net.root = some root ∧
    ∀ (period : α) (x : Nat → Stimulus α) (n : Nat) (s₀ s : Simulator α),
      Simulator.start net.fragment period = .ok s₀ → Simulator.drive x (n + 1) s₀ = .ok s →
      ∃ v, s.value? root = some v ∧
        program.pool.course ⟨program.parameters, program.host,
          Surroundings.during { period, time := 0 } x, share⟩ id n = some v

/-- **Lowering preserves meaning.**  Let an expression without placeholders be
compiled with the rules of the library.  Then the root of the network follows
the course of the expression.

Constants are carried up to structural equality: `share` puts a constant of
the expression in place of another one only if the two are structurally equal,
so it changes nothing where no two different constants are. -/
theorem Compiler.compile_expr_computes {pool : Pool α} (hpool : pool.Reachable)
    {settings : Settings α} {host : Host α} {parameters : Parameters α} {id : ExprId}
    {net : CompiledNet α}
    (hplain : ∀ j n, pool.Reaches id j → pool.get? j = some n → n.form.isPlaceholder = false)
    (hnet : Compiler.compile ⟨.standard, settings⟩ pool host
      { target := .expr id, parameters } = .ok net) :
    let program : Program α := ⟨pool, .standard, parameters, settings, host⟩
    ∃ share, (∀ v, (share v).canonical = v.canonical) ∧
      (∀ v, share v ≠ v → program.Constant (pool.Reaches id) v ∧
        program.Constant (pool.Reaches id) (share v)) ∧
      net.Computes program share id := by
  classical
  intro program
  obtain ⟨s', hsession⟩ := Compiler.compile_eq_ok hnet
  have hp := hpool.wellFormed
  obtain ⟨s, root, hfaithful, hfragment, hentry, hroot, -⟩ :=
    Session.compile_expr_faithful hp rfl ⟨fun hj hn d hd => .operand hj hn hd,
      fun hj hn => hplain _ _ hj hn⟩ hsession
  let share : Value α → Value α := fun v =>
    if program.Constant (pool.Reaches id) v then s.carried v else v
  have hcarried : ∀ v, (s.carried v).canonical = v.canonical ∧
      (s.carried v ≠ v → program.Constant (pool.Reaches id) (s.carried v)) := by
    intro v
    cases hq : s.constants.get? v.canonical with
    | none =>
        rw [Session.carried_of_none hq]
        exact ⟨rfl, fun hne => absurd rfl hne⟩
    | some q =>
        obtain ⟨hcanonical, hconstant, -⟩ := hfaithful.toGrounded.carried_spec hq
        exact ⟨hcanonical, fun _ => hconstant⟩
  refine ⟨share, ?_, ?_, root, hroot, ?_⟩
  · intro v
    by_cases hv : program.Constant (pool.Reaches id) v
    · simpa only [share, if_pos hv] using (hcarried v).1
    · simp only [share, if_neg hv]
  · intro v hne
    by_cases hv : program.Constant (pool.Reaches id) v
    · have heq : share v = s.carried v := if_pos hv
      rw [heq] at hne ⊢
      exact ⟨hv, (hcarried v).2 hne⟩
    · exact absurd (if_neg hv) hne
  · intro period x n s₀ sim hstart hdrive
    rw [← hfragment] at hstart
    refine hfaithful.run hp ⟨rfl, rfl, ?_⟩ rfl hstart hdrive hentry
    intro v q hv hq
    have heq : share v = s.carried v := if_pos hv
    obtain ⟨-, -, hmakes⟩ := hfaithful.toGrounded.carried_spec hq
    show ∃ kind, s.fragment.Makes q (.constant (share v)) [] kind
    rw [heq]
    exact hmakes

/-- The pool of a sample expression: an input is compared with its previous
value, and while it rises its smoothed change is added. -/
def Sample.rising : Pool Float :=
  Pool.performAll [.input "x" .double .global, .pre 0 (.double 0), .binary .sub 0 1,
    .smooth 2 0.5, .compare .greater 0 1, .constant (.double 0), .select 4 3 5, .binary .add 0 6]
    { folding := true }

theorem Compiler.rising_computes :
    ∃ net, Compiler.compile ⟨.standard, .standard⟩ Sample.rising .offline
        { target := .expr 7 } = .ok net ∧
      ∃ share, (∀ v, (share v).canonical = v.canonical) ∧
        (∀ v, share v ≠ v →
          Program.Constant ⟨Sample.rising, .standard, {}, .standard, .offline⟩
            (Sample.rising.Reaches 7) v ∧
          Program.Constant ⟨Sample.rising, .standard, {}, .standard, .offline⟩
            (Sample.rising.Reaches 7) (share v)) ∧
        net.Computes ⟨Sample.rising, .standard, {}, .standard, .offline⟩ share 7 := by
  have hok : (Compiler.compile ⟨.standard, .standard⟩ Sample.rising .offline
      { target := .expr 7 }).isOk = true := by decide +kernel
  have hnodes : (Sample.rising.nodes.all fun n => !n.form.isPlaceholder) = true := by
    decide +kernel
  cases hnet : Compiler.compile ⟨.standard, .standard⟩ Sample.rising .offline
      { target := .expr 7 } with
  | error e =>
      rw [hnet] at hok
      cases hok
  | ok net =>
      exact ⟨net, rfl, Compiler.compile_expr_computes ⟨true, _, rfl⟩
        (fun j n _ hn => by simpa using Pool.all_nodes hnodes hn) hnet⟩

/-- What the root of a compiled network carries after some cycles. -/
def Compiler.rootAfter? (c : Compiler α) (pool : Pool α) (host : Host α) (request : Request α)
    (period : α) (x : Nat → Stimulus α) (n : Nat) : Option (Value α) :=
  match c.compile pool host request with
  | .error _ => none
  | .ok net =>
    match Simulator.start net.fragment period with
    | .error _ => none
    | .ok s₀ =>
      match Simulator.drive x n s₀ with
      | .error _ => none
      | .ok s => net.root.bind s.value?

theorem Compiler.rootAfter?_eq_some {c : Compiler α} {pool : Pool α} {host : Host α}
    {request : Request α} {period : α} {x : Nat → Stimulus α} {n : Nat} {v : Value α}
    (h : c.rootAfter? pool host request period x n = some v) :
    ∃ net s₀ s, c.compile pool host request = .ok net ∧
      Simulator.start net.fragment period = .ok s₀ ∧ Simulator.drive x n s₀ = .ok s ∧
      net.root.bind s.value? = some v := by
  unfold rootAfter? at h
  split at h
  · cases h
  · next net hnet =>
      split at h
      · cases h
      · next s₀ hstart =>
          split at h
          · cases h
          · next s hdrive => exact ⟨net, s₀, s, hnet, hstart, hdrive, h⟩

/-- The pool of a sample expression: `0 + 1 / p` for a parameter `p`. -/
def Sample.reciprocal : Pool Float :=
  Pool.performAll [.constant (.double 0), .constant (.double 1), .parameter "p" .double,
    .binary .div 1 2, .binary .add 0 3] { folding := false }

/-- Constants are not always carried as they are written down: for `p` the
negative zero, `0 + 1 / p` comes out positive, since `p` shares the block of
the literal zero. -/
theorem Compiler.computes_fails_for_signed_zeros :
    ¬ ∀ (pool : Pool Float) (id : ExprId) (parameters : Parameters Float) (host : Host Float)
      (settings : Settings Float) (net : CompiledNet Float), pool.Reachable →
      (∀ j n, pool.Reaches id j → pool.get? j = some n →
        n.form.isPlaceholder = false ∧ ∀ c, n.form ≠ .custom c) →
      Compiler.compile ⟨.standard, settings⟩ pool host { target := .expr id, parameters } =
        .ok net →
      net.Computes ⟨pool, .standard, parameters, settings, host⟩ (fun v => v) id := by
  intro hclaim
  have hroot : Compiler.rootAfter? ⟨.standard, .standard⟩ Sample.reciprocal .offline
      { target := .expr 4, parameters := Parameters.set {} "p" (.double (-0)) } 1 (fun _ => {}) 1 =
      some (.double (1 / 0)) := by decide +kernel
  obtain ⟨net, s₀, s, hnet, hstart, hdrive, hvalue⟩ := Compiler.rootAfter?_eq_some hroot
  have hplain : ∀ j n, Sample.reciprocal.Reaches 4 j → Sample.reciprocal.get? j = some n →
      n.form.isPlaceholder = false ∧ ∀ c, n.form ≠ .custom c := by
    have hnodes : (Sample.reciprocal.nodes.all fun n => match n.form with
        | .placeholder _ _ | .custom _ => false
        | _ => true) = true := by decide +kernel
    intro j n _ hn
    have hnode := Pool.all_nodes hnodes hn
    cases hform : n.form with
    | placeholder number label =>
        rw [hform] at hnode
        cases hnode
    | custom c =>
        rw [hform] at hnode
        cases hnode
    | _ => exact ⟨rfl, fun c hc => by cases hc⟩
  obtain ⟨root, hroot', hcomputes⟩ :=
    hclaim _ 4 _ .offline _ net ⟨false, _, rfl⟩ hplain hnet
  obtain ⟨v, hv, hcourse⟩ := hcomputes 1 (fun _ => {}) 0 s₀ s hstart hdrive
  rw [hroot', Option.bind_some, hv] at hvalue
  cases hvalue
  have hexpected : Sample.reciprocal.course ⟨Parameters.set {} "p" (.double (-0)), .offline,
      Surroundings.during { period := 1, time := 0 } fun _ => {}, fun v => v⟩ 4 0 ≠
      some (.double (1 / 0)) := by decide +kernel
  exact hexpected hcourse

end SignalNet
