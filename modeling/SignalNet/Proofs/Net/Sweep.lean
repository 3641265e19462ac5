import SignalNet.Net.Simulator
import SignalNet.Proofs.Net.Order

/-!
# The two halves of a cycle

A cycle visits the blocks one after another, first to evaluate and then to
conclude.  In the first half a block is *settled* once it has put out what it
makes of the values of its sources (`Simulator.Settled`).  A settled block
stays settled, because the order is a schedule: a source is visited before the
blocks that it feeds and not touched afterwards.

* `Simulator.sweep_cases` is the induction over a sweep, for sweeps that end
  and for sweeps that stop with an error.
* `Simulator.Progress` is the state of the first half of a cycle, and
  `Simulator.Progress.evaluate` its step.
* `Simulator.Concluding` is the state of the second half, and
  `Simulator.Concluding.conclude` its step.
-/

namespace SignalNet.Simulator

open Computing

variable {α : Type}

/-- What a step of a sweep keeps, the sweep keeps.  A sweep that stops has
done so at a block, with the blocks before it visited. -/
theorem sweep_cases {act : Simulator α → BlockId → Except (SimError α) (Simulator α)}
    {I : List BlockId → Simulator α → Prop} {order : List BlockId}
    (hstep : ∀ {done : List BlockId} {b : BlockId} {rest : List BlockId} {s s' : Simulator α},
      order = done ++ b :: rest → I done s → act s b = .ok s' → I (done ++ [b]) s')
    {s : Simulator α} (h : I [] s) :
    (∃ s', sweep act order s = .ok () s' ∧ I order s') ∨
      ∃ done b rest e s', order = done ++ b :: rest ∧ sweep act order s = .error e s' ∧
        I done s' ∧ act s' b = .error e := by
  suffices hall : ∀ (rest done : List BlockId) (s : Simulator α), order = done ++ rest →
      I done s → (∃ s', sweep act rest s = .ok () s' ∧ I order s') ∨
        ∃ done b after e s', order = done ++ b :: after ∧ sweep act rest s = .error e s' ∧
          I done s' ∧ act s' b = .error e from hall order [] s rfl h
  intro rest
  induction rest with
  | nil =>
      intro done s hsplit hdone
      refine Or.inl ⟨s, rfl, ?_⟩
      rw [hsplit, List.append_nil]
      exact hdone
  | cons b rest ih =>
      intro done s hsplit hdone
      cases hact : act s b with
      | error e =>
          refine Or.inr ⟨done, b, rest, e, s, hsplit, ?_, hdone, hact⟩
          simp only [sweep, hact]
      | ok next =>
          have hsweep : sweep act (b :: rest) s = sweep act rest next := by
            simp only [sweep, hact]
          rw [hsweep]
          refine ih (done ++ [b]) next ?_ (hstep hsplit hdone hact)
          rw [hsplit, List.append_assoc]
          rfl

/-- The inputs of a block carry the given values. -/
def Carries (f : Fragment α) (values : PortId → Option (Value α)) (inputs : List PortId)
    (args : List (Value α)) : Prop :=
  List.Forall₂ (fun input v => ∃ source, f.producer? input = some source ∧
    values source = some v) inputs args

theorem argument_eq_ok {s : Simulator α} {b : BlockId} {input : PortId} {v : Value α} :
    s.argument b input = .ok v ↔
      ∃ source, s.fragment.producer? input = some source ∧ s.value? source = some v := by
  unfold argument
  cases hproducer : s.fragment.producer? input with
  | none => simp
  | some source => cases hvalue : s.value? source <;> simp [hvalue]

theorem arguments_eq_ok {s : Simulator α} {b : BlockId} {blk : Block α} {args : List (Value α)} :
    s.arguments b blk = .ok args ↔ Carries s.fragment s.value? blk.inputs args := by
  unfold arguments Carries
  rw [mapM_ok_iff_forall₂]
  constructor
  · exact fun h => h.imp fun _ _ => argument_eq_ok.mp
  · exact fun h => h.imp fun _ _ => argument_eq_ok.mpr

theorem blockAt_eq_ok {s : Simulator α} {b : BlockId} {blk : Block α} :
    s.blockAt b = .ok blk ↔ s.fragment.blocks[b]? = some blk := by
  unfold blockAt Fragment.block
  cases s.fragment.blocks[b]? <;> simp [Except.mapError]

/-- The values of given inputs are determined. -/
theorem Carries.unique {f : Fragment α} {values : PortId → Option (Value α)}
    {inputs : List PortId} {args args' : List (Value α)} (h : Carries f values inputs args)
    (h' : Carries f values inputs args') : args = args' := by
  induction h generalizing args' with
  | nil =>
      cases h'
      rfl
  | cons hv _ ih =>
      cases h' with
      | cons hv' hrest' =>
          obtain ⟨source, hproducer, hvalue⟩ := hv
          obtain ⟨source', hproducer', hvalue'⟩ := hv'
          rw [hproducer] at hproducer'
          cases hproducer'
          rw [hvalue] at hvalue'
          cases hvalue'
          rw [ih hrest']

/-- If the inputs of a block are fed by the given ports, they carry what those
ports carry. -/
theorem Carries.of_fed {f : Fragment α} {values : PortId → Option (Value α)}
    {inputs sources : List PortId} {args : List (Value α)} (h : Carries f values inputs args)
    (hfed : List.Forall₂ (fun input source => f.producer? input = some source) inputs sources) :
    List.Forall₂ (fun source v => values source = some v) sources args := by
  induction hfed generalizing args with
  | nil =>
      cases h
      exact List.Forall₂.nil
  | cons hsource _ ih =>
      cases h with
      | cons hv hrest =>
          obtain ⟨source, hproducer, hvalue⟩ := hv
          rw [hsource] at hproducer
          cases hproducer
          exact List.Forall₂.cons hvalue (ih hrest)

theorem Carries.congr {f : Fragment α} {values values' : PortId → Option (Value α)}
    {inputs : List PortId} {args : List (Value α)} (h : Carries f values inputs args)
    (hsame : ∀ {input source : PortId}, input ∈ inputs → f.producer? input = some source →
      values' source = values source) : Carries f values' inputs args := by
  induction h with
  | nil => exact List.Forall₂.nil
  | cons hv _ ih =>
      obtain ⟨source, hproducer, hvalue⟩ := hv
      refine List.Forall₂.cons ⟨source, hproducer, ?_⟩ (ih fun hmem => hsame (by simp [hmem]))
      rw [hsame (by simp) hproducer, hvalue]

/-- The source of an input is an output port of some block. -/
theorem source_port {f : Fragment α} (hf : f.WellFormed) {input source : PortId}
    (h : f.producer? input = some source) : ∃ port, f.ports[source]? = some port := by
  obtain ⟨port, -, hport, -⟩ := hf.wires _ (hf.producer?_eq_some_iff.mp h)
  exact ⟨port, hport⟩

@[simp] theorem value?_put_self (s : Simulator α) (q : PortId) (v : Value α) :
    (s.put q v).value? q = some v :=
  Table.get?_insert_self _ _ _

theorem value?_put_of_ne (s : Simulator α) {q q' : PortId} (v : Value α) (h : q' ≠ q) :
    (s.put q v).value? q' = s.value? q' :=
  Table.get?_insert_of_ne _ _ h

@[simp] theorem remember_fragment (s : Simulator α) (b : BlockId) (m : Option (Memory α)) :
    (s.remember b m).fragment = s.fragment := by
  cases m <;> rfl

@[simp] theorem remember_order (s : Simulator α) (b : BlockId) (m : Option (Memory α)) :
    (s.remember b m).order = s.order := by
  cases m <;> rfl

@[simp] theorem remember_around (s : Simulator α) (b : BlockId) (m : Option (Memory α)) :
    (s.remember b m).around = s.around := by
  cases m <;> rfl

@[simp] theorem remember_cycles (s : Simulator α) (b : BlockId) (m : Option (Memory α)) :
    (s.remember b m).cycles = s.cycles := by
  cases m <;> rfl

@[simp] theorem remember_values (s : Simulator α) (b : BlockId) (m : Option (Memory α)) :
    (s.remember b m).values = s.values := by
  cases m <;> rfl

@[simp] theorem value?_remember (s : Simulator α) (b : BlockId) (m : Option (Memory α))
    (q : PortId) : (s.remember b m).value? q = s.value? q := by
  cases m <;> rfl

@[simp] theorem memories_remember_self (s : Simulator α) (b : BlockId) (m : Option (Memory α)) :
    (s.remember b m).memories.get? b = m.or (s.memories.get? b) := by
  cases m with
  | none => rfl
  | some m => exact Table.get?_insert_self _ _ _

theorem memories_remember_of_ne (s : Simulator α) {b c : BlockId} (m : Option (Memory α))
    (h : c ≠ b) : (s.remember b m).memories.get? c = s.memories.get? c := by
  cases m with
  | none => rfl
  | some m => exact Table.get?_insert_of_ne _ _ h

variable [Scalar α]

/-! ### Evaluating blocks -/

/-- Everything that the evaluation of a block can do. -/
theorem evaluate_eq_ok {s s' : Simulator α} {b : BlockId} (h : s.evaluate b = .ok s') :
    ∃ blk, s.fragment.blocks[b]? = some blk ∧
      ((∃ initial q, blk.primitive = .pre initial ∧ blk.output = some q ∧
          s' = s.put q (s.delayed b initial)) ∨
        (∃ slot, blk.primitive = .store slot ∧ s' = s) ∨
        ∃ args q kind v m, blk.primitive.isDelay = false ∧ blk.primitive.isSink = false ∧
          Carries s.fragment s.value? blk.inputs args ∧ blk.output = some q ∧
          s.fragment.kindOf q = .ok kind ∧
          blk.primitive.react s.around kind (s.memories.get? b) args = .ok (v, m) ∧
          s' = (s.remember b m).put q v) := by
  unfold evaluate at h
  cases hblk : s.blockAt b with
  | error e => simp [hblk] at h
  | ok blk =>
      refine ⟨blk, blockAt_eq_ok.mp hblk, ?_⟩
      simp only [hblk] at h
      have hreact : ∀ (_ : s.reactAt b blk = .ok s'), ∃ args q kind v m,
          Carries s.fragment s.value? blk.inputs args ∧ blk.output = some q ∧
          s.fragment.kindOf q = .ok kind ∧
          blk.primitive.react s.around kind (s.memories.get? b) args = .ok (v, m) ∧
          s' = (s.remember b m).put q v := by
        intro hreact
        unfold reactAt at hreact
        cases hargs : s.arguments b blk with
        | error e => simp [hargs] at hreact
        | ok args =>
            cases hout : blk.output with
            | none => simp [hargs, hout] at hreact
            | some q =>
                simp only [hargs, hout] at hreact
                cases hkind : s.fragment.kindOf q with
                | error e => simp [hkind] at hreact
                | ok kind =>
                    simp only [hkind] at hreact
                    cases hr : blk.primitive.react s.around kind (s.memories.get? b) args with
                    | error fault => cases fault <;> simp [hr] at hreact
                    | ok result =>
                        obtain ⟨v, m⟩ := result
                        simp only [hr, Except.ok.injEq] at hreact
                        exact ⟨args, q, kind, v, m, arguments_eq_ok.mp hargs, rfl, hkind, hr,
                          hreact.symm⟩
      cases hprim : blk.primitive with
      | pre initial =>
          simp only [hprim] at h
          cases hout : blk.output with
          | none => simp [hout] at h
          | some q =>
              simp only [hout, Except.ok.injEq] at h
              exact Or.inl ⟨initial, q, rfl, rfl, h.symm⟩
      | store slot =>
          simp only [hprim, Except.ok.injEq] at h
          exact Or.inr (Or.inl ⟨slot, rfl, h.symm⟩)
      | _ =>
          simp only [hprim] at h
          obtain ⟨args, q, kind, v, m, hcarries, hout, hkind, hr, hs'⟩ := hreact h
          rw [hprim] at hr
          exact Or.inr (Or.inr ⟨args, q, kind, v, m, rfl, rfl, hcarries, hout, hkind, hr, hs'⟩)

/-- The evaluation of a block that is neither delay nor sink is its reaction
to the values that its inputs carry. -/
theorem evaluate_reaction {s : Simulator α} {b : BlockId} {blk : Block α}
    {args : List (Value α)} {q : PortId} {kind : Kind} (hblk : s.fragment.blocks[b]? = some blk)
    (hdelay : blk.primitive.isDelay = false) (hsink : blk.primitive.isSink = false)
    (hargs : Carries s.fragment s.value? blk.inputs args) (hout : blk.output = some q)
    (hkind : s.fragment.kindOf q = .ok kind) :
    s.evaluate b =
      match blk.primitive.react s.around kind (s.memories.get? b) args with
      | .error .rejected => .error (.rejected blk.primitive.name b args)
      | .error .emptyRange => .error (.emptyRange b)
      | .ok (v, m) => .ok ((s.remember b m).put q v) := by
  have hreact : s.evaluate b = s.reactAt b blk := by
    unfold evaluate
    rw [blockAt_eq_ok.mpr hblk]
    cases hprim : blk.primitive with
    | pre initial =>
        rw [hprim] at hdelay
        cases hdelay
    | store slot =>
        rw [hprim] at hsink
        cases hsink
    | _ => simp only [hprim]
  rw [hreact]
  unfold reactAt
  rw [arguments_eq_ok.mpr hargs]
  cases hreaction : blk.primitive.react s.around kind (s.memories.get? b) args with
  | error fault => cases fault <;> simp only [hout, hkind, hreaction]
  | ok result => simp only [hout, hkind, hreaction]

/-- What a block has done in the first half of a cycle that began as `s`, seen
from a later moment `s'`. -/
inductive Settled (s s' : Simulator α) (b : BlockId) (blk : Block α) : Prop
  | delay {initial : Value α} {q : PortId} (hprimitive : blk.primitive = .pre initial)
      (houtput : blk.output = some q) (hvalue : s'.value? q = some (s.delayed b initial))
      (hmemory : s'.memories.get? b = s.memories.get? b)
  | sink {slot : Nat} (hprimitive : blk.primitive = .store slot)
      (hmemory : s'.memories.get? b = s.memories.get? b)
  | reaction {args : List (Value α)} {q : PortId} {kind : Kind} {v : Value α}
      {m : Option (Memory α)} (hdelay : blk.primitive.isDelay = false)
      (hsink : blk.primitive.isSink = false)
      (hargs : Carries s.fragment s'.value? blk.inputs args) (houtput : blk.output = some q)
      (hkind : s.fragment.kindOf q = .ok kind)
      (hreact : blk.primitive.react s.around kind (s.memories.get? b) args = .ok (v, m))
      (hvalue : s'.value? q = some v) (hmemory : s'.memories.get? b = m.or (s.memories.get? b))

/-- The first half of a cycle that began as `s₀`, with some blocks visited. -/
structure Progress (s₀ : Simulator α) (done : List BlockId) (s : Simulator α) : Prop where
  fragment : s.fragment = s₀.fragment
  order : s.order = s₀.order
  around : s.around = s₀.around
  cycles : s.cycles = s₀.cycles
  untouched : ∀ {b : BlockId}, b ∉ done → s.memories.get? b = s₀.memories.get? b
  settled : ∀ {b : BlockId}, b ∈ done → ∃ blk, s₀.fragment.blocks[b]? = some blk ∧
    Settled s₀ s b blk

theorem progress_refl (s : Simulator α) : Progress s [] s :=
  ⟨rfl, rfl, rfl, rfl, fun _ => rfl, fun h => by simp at h⟩

/-- What the evaluation of a block leaves alone. -/
theorem evaluate_frame {s s' : Simulator α} (hf : s.fragment.WellFormed) {b : BlockId}
    (h : s.evaluate b = .ok s') :
    s'.fragment = s.fragment ∧ s'.order = s.order ∧ s'.around = s.around ∧
      s'.cycles = s.cycles ∧
      (∀ {c : BlockId}, c ≠ b → s'.memories.get? c = s.memories.get? c) ∧
      ∀ {q : PortId} {port : Port}, s.fragment.ports[q]? = some port → port.block ≠ b →
        s'.value? q = s.value? q := by
  obtain ⟨blk, hblk, hcases⟩ := evaluate_eq_ok h
  -- A port of another block is not the output of this one.
  have hother : ∀ {q out : PortId} {port : Port}, blk.output = some out →
      s.fragment.ports[q]? = some port → port.block ≠ b → q ≠ out := by
    intro q out port hout hport hne heq
    subst heq
    obtain ⟨kind, hown⟩ := hf.output hblk hout
    rw [hown] at hport
    cases hport
    exact hne rfl
  rcases hcases with ⟨initial, out, -, hout, rfl⟩ | ⟨slot, -, rfl⟩ |
    ⟨args, out, kind, v, m, -, -, -, hout, -, -, rfl⟩
  · exact ⟨rfl, rfl, rfl, rfl, fun _ => rfl,
      fun hport hne => value?_put_of_ne _ _ (hother hout hport hne)⟩
  · exact ⟨rfl, rfl, rfl, rfl, fun _ => rfl, fun _ _ => rfl⟩
  · refine ⟨remember_fragment s b m, remember_order s b m, remember_around s b m,
      remember_cycles s b m, fun hne => memories_remember_of_ne s m hne, fun hport hne => ?_⟩
    rw [value?_put_of_ne _ _ (hother hout hport hne), value?_remember]

/-- A block stays settled as long as its memory, its output and the values of
its sources stay. -/
theorem Settled.frame {s s₁ s₂ : Simulator α} {b : BlockId} {blk : Block α}
    (h : Settled s s₁ b blk) (hmemory : s₂.memories.get? b = s₁.memories.get? b)
    (houtput : ∀ {q : PortId}, blk.output = some q → s₂.value? q = s₁.value? q)
    (hsources : blk.primitive.isDelay = false → ∀ {input source : PortId}, input ∈ blk.inputs →
      s.fragment.producer? input = some source → s₂.value? source = s₁.value? source) :
    Settled s s₂ b blk := by
  cases h with
  | delay hprimitive hout hvalue hmem =>
      exact .delay hprimitive hout ((houtput hout).trans hvalue) (hmemory.trans hmem)
  | sink hprimitive hmem => exact .sink hprimitive (hmemory.trans hmem)
  | reaction hdelay hsink hargs hout hkind hreact hvalue hmem =>
      exact .reaction hdelay hsink (hargs.congr (hsources hdelay)) hout hkind hreact
        ((houtput hout).trans hvalue) (hmemory.trans hmem)

/-- **The step of the first half of a cycle.**  Evaluating the next block of a
schedule settles it and leaves the others settled. -/
theorem Progress.evaluate {s₀ s s' : Simulator α} {done rest order : List BlockId} {b : BlockId}
    (hf : s₀.fragment.WellFormed) (hschedule : s₀.fragment.Schedules order)
    (hsplit : order = done ++ b :: rest) (h : Progress s₀ done s)
    (hevaluate : s.evaluate b = .ok s') : Progress s₀ (done ++ [b]) s' := by
  obtain ⟨hfragment, horder, haround, hcycles, huntouched, hsettled⟩ := h
  have hfs : s.fragment.WellFormed := by
    rw [hfragment]
    exact hf
  obtain ⟨hfragment', horder', haround', hcycles', hmemories, hvalues⟩ :=
    evaluate_frame hfs hevaluate
  rw [hfragment] at hvalues
  have hfresh : b ∉ done := Fragment.not_mem_before hschedule.nodup hsplit
  refine ⟨hfragment'.trans hfragment, horder'.trans horder, haround'.trans haround,
    hcycles'.trans hcycles, ?_, ?_⟩
  · intro c hc
    simp only [List.mem_append, List.mem_singleton, not_or] at hc
    rw [hmemories hc.2, huntouched hc.1]
  · intro c hc
    -- The sources of a visited block that is no delay belong to visited blocks.
    have hsources : ∀ {blk : Block α}, s₀.fragment.blocks[c]? = some blk →
        blk.primitive.isDelay = false → ∀ {input source : PortId}, input ∈ blk.inputs →
        s₀.fragment.producer? input = some source → s'.value? source = s.value? source := by
      intro blk hblk hdelay input source hinput hsource
      obtain ⟨port, hport⟩ := source_port hf hsource
      refine hvalues hport ?_
      rintro rfl
      rcases List.mem_append.mp hc with hold | hnew
      · obtain ⟨before, after, hparts⟩ := List.append_of_mem hold
        have horder₁ : order = before ++ c :: (after ++ port.block :: rest) := by
          rw [hsplit, hparts]
          simp
        have hmem := hschedule.fed horder₁ hblk hdelay hinput hsource hport
        exact hfresh (by rw [hparts]; exact List.mem_append_left _ hmem)
      · obtain rfl := List.mem_singleton.mp hnew
        exact hfresh (hschedule.fed hsplit hblk hdelay hinput hsource hport)
    rcases List.mem_append.mp hc with hold | hnew
    · obtain ⟨blk, hblk, hset⟩ := hsettled hold
      have hne : c ≠ b := fun heq => hfresh (heq ▸ hold)
      refine ⟨blk, hblk, hset.frame (hmemories hne) ?_ (hsources hblk)⟩
      intro q hq
      obtain ⟨kind, hport⟩ := hf.output hblk hq
      exact hvalues hport hne
    · obtain rfl := List.mem_singleton.mp hnew
      obtain ⟨blk, hblk, hcases⟩ := evaluate_eq_ok hevaluate
      rw [hfragment] at hblk
      refine ⟨blk, hblk, ?_⟩
      have hmemory := huntouched hfresh
      rcases hcases with ⟨initial, q, hprimitive, hout, rfl⟩ | ⟨slot, hprimitive, rfl⟩ |
        ⟨args, q, kind, v, m, hdelay, hsink, hargs, hout, hkind, hreact, hs'⟩
      · refine .delay hprimitive hout ?_ hmemory
        rw [value?_put_self, delayed, delayed, hmemory]
      · exact .sink hprimitive hmemory
      · rw [hfragment] at hargs hkind
        rw [haround, hmemory] at hreact
        refine .reaction hdelay hsink (hargs.congr (hsources hblk hdelay)) hout hkind hreact ?_ ?_
        · rw [hs', value?_put_self]
        · rw [hs', ← hmemory]
          exact memories_remember_self s c m

/-- A settled block with an output has put out a value. -/
theorem Settled.value {s s' : Simulator α} {b : BlockId} {blk : Block α}
    (h : Settled s s' b blk) (hsink : blk.primitive.isSink = blk.output.isNone) {q : PortId}
    (hq : blk.output = some q) : ∃ v, s'.value? q = some v := by
  cases h with
  | delay hprimitive hout hvalue hmem =>
      rw [hout] at hq
      cases hq
      exact ⟨_, hvalue⟩
  | sink hprimitive hmem => simp [hprimitive, hq, Primitive.isSink] at hsink
  | reaction hdelay _ hargs hout hkind hreact hvalue hmem =>
      rw [hout] at hq
      cases hq
      exact ⟨_, hvalue⟩

/-! ### The end of a cycle -/

omit [Scalar α] in
/-- Everything that a block can do at the end of a cycle. -/
theorem conclude_eq_ok {s s' : Simulator α} {b : BlockId} (h : s.conclude b = .ok s') :
    ∃ blk, s.fragment.blocks[b]? = some blk ∧
      ((∃ initial args, blk.primitive = .pre initial ∧
          Carries s.fragment s.value? blk.inputs args ∧
          s' = s.remember b (args.head?.map .delay)) ∨
        (∃ slot args, blk.primitive = .store slot ∧
          Carries s.fragment s.value? blk.inputs args ∧
          ((∃ v, args.head? = some v ∧ s' = s.setSlot slot v) ∨ args.head? = none ∧ s' = s)) ∨
        blk.primitive.isDelay = false ∧ blk.primitive.isSink = false ∧ s' = s) := by
  unfold conclude at h
  cases hblk : s.blockAt b with
  | error e => simp [hblk] at h
  | ok blk =>
      refine ⟨blk, blockAt_eq_ok.mp hblk, ?_⟩
      simp only [hblk] at h
      cases hprim : blk.primitive with
      | pre initial =>
          simp only [hprim] at h
          cases hargs : s.arguments b blk with
          | error e => simp [hargs] at h
          | ok args =>
              simp only [hargs, Except.ok.injEq] at h
              exact Or.inl ⟨initial, args, rfl, arguments_eq_ok.mp hargs, h.symm⟩
      | store slot =>
          simp only [hprim] at h
          cases hargs : s.arguments b blk with
          | error e => simp [hargs] at h
          | ok args =>
              refine Or.inr (Or.inl ⟨slot, args, rfl, arguments_eq_ok.mp hargs, ?_⟩)
              cases hhead : args.head? with
              | none =>
                  simp only [hargs, hhead, Except.ok.injEq] at h
                  exact Or.inr ⟨rfl, h.symm⟩
              | some v =>
                  simp only [hargs, hhead, Except.ok.injEq] at h
                  exact Or.inl ⟨v, rfl, h.symm⟩
      | _ =>
          simp only [hprim, Except.ok.injEq] at h
          exact Or.inr (Or.inr ⟨rfl, rfl, h.symm⟩)

omit [Scalar α] in
/-- A block whose inputs all carry values has nothing to complain about. -/
theorem conclude_total {s : Simulator α} {b : BlockId} {blk : Block α}
    {args : List (Value α)} (hblk : s.fragment.blocks[b]? = some blk)
    (hargs : Carries s.fragment s.value? blk.inputs args) : ∃ s', s.conclude b = .ok s' := by
  have hblock := blockAt_eq_ok.mpr hblk
  have harguments : s.arguments b blk = .ok args := arguments_eq_ok.mpr hargs
  unfold conclude
  simp only [hblock]
  cases hprim : blk.primitive with
  | pre initial => exact ⟨_, by simp only [harguments]; rfl⟩
  | store slot =>
      simp only [harguments]
      cases args.head? with
      | none => exact ⟨_, rfl⟩
      | some v => exact ⟨_, rfl⟩
  | _ => exact ⟨s, rfl⟩

/-- The second half of a cycle that began as `s₁`, with some blocks visited. -/
structure Concluding (s₁ : Simulator α) (done : List BlockId) (s : Simulator α) : Prop where
  fragment : s.fragment = s₁.fragment
  order : s.order = s₁.order
  cycles : s.cycles = s₁.cycles
  values : s.values = s₁.values
  period : s.around.period = s₁.around.period
  time : s.around.time = s₁.around.time
  inputs : s.around.inputs = s₁.around.inputs
  sensors : s.around.sensors = s₁.around.sensors
  slots : (∀ {b : BlockId} {blk : Block α}, s₁.fragment.blocks[b]? = some blk →
    blk.primitive.isSink = false) → s.around.slots = s₁.around.slots
  untouched : ∀ {b : BlockId}, b ∉ done → s.memories.get? b = s₁.memories.get? b
  delays : ∀ {b : BlockId}, b ∈ done → ∀ {blk : Block α}, s₁.fragment.blocks[b]? = some blk →
    blk.primitive.isDelay = true → ∃ v, Carries s₁.fragment s₁.value? blk.inputs [v] ∧
      s.memories.get? b = some (.delay v)
  others : ∀ {b : BlockId} {blk : Block α}, s₁.fragment.blocks[b]? = some blk →
    blk.primitive.isDelay = false → s.memories.get? b = s₁.memories.get? b

omit [Scalar α] in
theorem concluding_refl (s : Simulator α) : Concluding s [] s :=
  ⟨rfl, rfl, rfl, rfl, rfl, rfl, rfl, rfl, fun _ => rfl, fun _ => rfl, fun h => by simp at h,
    fun _ _ => rfl⟩

omit [Scalar α] in
/-- A list of one value for each input of a delay. -/
theorem Carries.single {f : Fragment α} {values : PortId → Option (Value α)}
    {inputs : List PortId} {args : List (Value α)} (h : Carries f values inputs args)
    (hlength : inputs.length = 1) : ∃ v, args = [v] := by
  have hargs : args.length = 1 := h.length_eq ▸ hlength
  exact List.length_eq_one_iff.mp hargs

omit [Scalar α] in
/-- Visiting a block that is no delay leaves the memories as they are. -/
theorem Concluding.pass {s₁ s : Simulator α} {done : List BlockId} (h : Concluding s₁ done s)
    {b : BlockId} {blk : Block α} (hblk : s₁.fragment.blocks[b]? = some blk)
    (hdelay : blk.primitive.isDelay = false) : Concluding s₁ (done ++ [b]) s := by
  refine { h with untouched := ?_, delays := ?_ }
  · intro c hc
    exact h.untouched fun hmem => hc (List.mem_append_left _ hmem)
  · intro c hc blk' hblk' hdelay'
    rcases List.mem_append.mp hc with hold | hnew
    · exact h.delays hold hblk' hdelay'
    · obtain rfl := List.mem_singleton.mp hnew
      rw [hblk] at hblk'
      cases hblk'
      rw [hdelay] at hdelay'
      cases hdelay'

omit [Scalar α] in
/-- Visiting a delay enters the value that it is fed. -/
theorem Concluding.enter {s₁ s : Simulator α} {done : List BlockId} (h : Concluding s₁ done s)
    {b : BlockId} {blk : Block α} (hfresh : b ∉ done)
    (hblk : s₁.fragment.blocks[b]? = some blk) (hdelay : blk.primitive.isDelay = true)
    {v : Value α} (hv : Carries s₁.fragment s₁.value? blk.inputs [v]) :
    Concluding s₁ (done ++ [b]) (s.remember b (some (.delay v))) := by
  have hmem : ∀ {c : BlockId}, c ≠ b →
      (s.remember b (some (.delay v))).memories.get? c = s.memories.get? c :=
    fun hne => memories_remember_of_ne s _ hne
  refine ⟨h.fragment, h.order, h.cycles, h.values, h.period, h.time, h.inputs, h.sensors,
    h.slots, ?_, ?_, ?_⟩
  · intro c hc
    simp only [List.mem_append, List.mem_singleton, not_or] at hc
    exact (hmem hc.2).trans (h.untouched hc.1)
  · intro c hc blk' hblk' hdelay'
    rcases List.mem_append.mp hc with hold | hnew
    · obtain ⟨w, hw, hmemory⟩ := h.delays hold hblk' hdelay'
      exact ⟨w, hw, (hmem fun heq => hfresh (heq ▸ hold)).trans hmemory⟩
    · obtain rfl := List.mem_singleton.mp hnew
      rw [hblk] at hblk'
      cases hblk'
      exact ⟨v, hv, memories_remember_self s c (some (.delay v))⟩
  · intro c blk' hblk' hdelay'
    have hne : c ≠ b := by
      rintro rfl
      rw [hblk] at hblk'
      cases hblk'
      rw [hdelay] at hdelay'
      cases hdelay'
    exact (hmem hne).trans (h.others hblk' hdelay')

omit [Scalar α] in
/-- **The step of the second half of a cycle.** -/
theorem Concluding.conclude {s₁ s s' : Simulator α} {done rest order : List BlockId}
    {b : BlockId} (hf : s₁.fragment.WellFormed) (hnodup : order.Nodup)
    (hsplit : order = done ++ b :: rest) (h : Concluding s₁ done s)
    (hconclude : s.conclude b = .ok s') : Concluding s₁ (done ++ [b]) s' := by
  have hfresh : b ∉ done := Fragment.not_mem_before hnodup hsplit
  have hvalue : s.value? = s₁.value? := by
    funext q
    unfold value?
    rw [h.values]
  obtain ⟨blk, hblk, hcases⟩ := conclude_eq_ok hconclude
  rw [h.fragment] at hblk
  rcases hcases with ⟨initial, args, hprimitive, hargs, rfl⟩ |
    ⟨slot, args, hprimitive, hargs, hslot⟩ | ⟨hdelay, hsink, rfl⟩
  · rw [h.fragment, hvalue] at hargs
    obtain ⟨v, rfl⟩ := hargs.single (hf.arity hblk 1 (by rw [hprimitive]; rfl))
    exact h.enter hfresh hblk (by rw [hprimitive]; rfl) hargs
  · -- A sink touches the slots only, and what it holds is no concern of the rest.
    have hpass := h.pass hblk (by rw [hprimitive]; rfl)
    rcases hslot with ⟨v, hhead, rfl⟩ | ⟨hhead, rfl⟩
    · refine { hpass with slots := ?_ }
      intro hnosink
      have hsink := hnosink hblk
      rw [hprimitive] at hsink
      cases hsink
    · exact hpass
  · exact h.pass hblk hdelay

end SignalNet.Simulator
