import SignalNet.Proofs.Net.Acyclic
import SignalNet.Proofs.Net.Equations
import SignalNet.Proofs.Net.Forecast

/-!
# Independence of the evaluation order

A fragment can have many legal orders, and the simulator happens to use one of
them.  Nothing that a simulation does depends on the choice, as long as no two
sinks fill one slot.

Two simulators that agree in everything but their orders are compared over one
cycle: what the first one carries after it is an outlook on the second one
(`Simulator.Agree.outlook`), so the second one completes its cycle with the
same values, and then memories and slots are the same too
(`Simulator.Agree.step`).  Runs follow by induction.
-/

namespace SignalNet

open Computing

variable {α : Type}

/-- A legal order is a schedule. -/
theorem Fragment.Legal.schedules {f : Fragment α} (hf : f.WellFormed) {order : List BlockId}
    (h : f.Legal order) : f.Schedules order := by
  refine ⟨h.nodup, h.complete, ?_⟩
  intro before b after hsplit blk hblk hdelay input source hinput hsource port hport
  obtain ⟨i, hi⟩ := List.mem_iff_getElem?.mp hinput
  obtain ⟨kind, htarget⟩ := hf.inputs hblk hi
  have hleads : f.Leads port.block b :=
    ⟨_, hf.producer?_eq_some_iff.mp hsource, port, _, hport, htarget, rfl, rfl⟩
  have hfree : ¬ f.IsDelay b := by
    rintro ⟨blk', hblk', hdelay'⟩
    rw [hblk] at hblk'
    cases hblk'
    rw [hdelay] at hdelay'
    cases hdelay'
  obtain ⟨owner, howner, -⟩ := hf.owner hport
  have hmem : port.block ∈ order :=
    (h.complete _).mpr (List.getElem?_eq_some_iff.mp howner).1
  obtain ⟨k, hk⟩ := List.mem_iff_getElem?.mp hmem
  have hb : order[before.length]? = some b := by
    rw [hsplit]
    simp
  have hlt := h.forward hk hb hleads hfree
  rw [hsplit, List.getElem?_append_left hlt] at hk
  exact List.mem_of_getElem? hk

/-- Legality, checked on the wires that constrain the order. -/
theorem Fragment.WellFormed.legal_of_edges {f : Fragment α} (hf : f.WellFormed)
    {order : List BlockId} (hnodup : order.Nodup)
    (hperm : order.Perm (List.range f.blocks.length))
    (hforward : ∀ e ∈ f.edges, order.idxOf e.source < order.idxOf e.target) :
    f.Legal order := by
  refine ⟨hnodup, fun b => by rw [hperm.mem_iff, List.mem_range], ?_⟩
  intro i j a b hi hj hleads hdelay
  have hfeeds : f.Feeds a b := hf.feeds_iff.mpr ⟨hleads, hdelay⟩
  have hlt := hforward ⟨a, b⟩ hfeeds
  obtain ⟨hi', rfl⟩ := List.getElem?_eq_some_iff.mp hi
  obtain ⟨hj', rfl⟩ := List.getElem?_eq_some_iff.mp hj
  rwa [hnodup.idxOf_getElem, hnodup.idxOf_getElem] at hlt

/-- The port is the output of a block. -/
def Fragment.IsOutput (f : Fragment α) (q : PortId) : Prop :=
  ∃ (b : BlockId) (blk : Block α), f.blocks[b]? = some blk ∧ blk.output = some q

theorem Fragment.WellFormed.isOutput {f : Fragment α} (hf : f.WellFormed) {q : PortId}
    {port : Port} (hport : f.ports[q]? = some port) (hout : port.direction = .output) :
    f.IsOutput q := by
  obtain ⟨blk, hblk, -, houtput⟩ := hf.owner hport
  exact ⟨port.block, blk, hblk, houtput hout⟩

theorem Fragment.WellFormed.source_isOutput {f : Fragment α} (hf : f.WellFormed)
    {input source : PortId} (h : f.producer? input = some source) : f.IsOutput source := by
  obtain ⟨port, -, hport, -, hout, -⟩ := hf.wires _ (hf.producer?_eq_some_iff.mp h)
  exact hf.isOutput hport hout

theorem Fragment.WellFormed.exposed_isOutput {f : Fragment α} (hf : f.WellFormed) {name : String}
    {q : PortId} (h : f.output? name = some q) : f.IsOutput q := by
  obtain ⟨port, hport, hout⟩ := hf.exposed h
  exact hf.isOutput hport hout

/-- No two sinks fill one slot. -/
def Fragment.SlotsApart (f : Fragment α) : Prop :=
  ∀ b c slot, f.Writes b slot → f.Writes c slot → b = c

namespace Simulator

/-- What the outputs of the blocks carry. -/
def Carried (s : Simulator α) (q : PortId) (v : Value α) : Prop :=
  s.fragment.IsOutput q ∧ s.value? q = some v

/-- Inputs that carry values have outputs for sources. -/
theorem Carries.sources {s : Simulator α} (hf : s.fragment.WellFormed) {inputs : List PortId}
    {args : List (Value α)} (h : Carries s.fragment s.value? inputs args) :
    ∃ sources, List.Forall₂ (fun input source => s.fragment.producer? input = some source) inputs
      sources ∧ List.Forall₂ s.Carried sources args := by
  induction h with
  | nil => exact ⟨[], .nil, .nil⟩
  | cons hv _ ih =>
      obtain ⟨source, hproducer, hvalue⟩ := hv
      obtain ⟨sources, hfed, hvalues⟩ := ih
      exact ⟨source :: sources, .cons hproducer hfed,
        .cons ⟨hf.source_isOutput hproducer, hvalue⟩ hvalues⟩

/-- The two simulators run the same fragment, and all look-ups in them have
the same answers. -/
structure Agree (s t : Simulator α) : Prop where
  fragment : s.fragment = t.fragment
  cycles : s.cycles = t.cycles
  around : s.around.Same t.around
  values : ∀ q, s.value? q = t.value? q
  memories : ∀ b, s.memories.get? b = t.memories.get? b

theorem Agree.symm {s t : Simulator α} (h : Agree s t) : Agree t s :=
  ⟨h.fragment.symm, h.cycles.symm, h.around.symm, fun q => (h.values q).symm,
    fun b => (h.memories b).symm⟩

/-- Simulators that differ in their orders only. -/
theorem Agree.orders (s : Simulator α) (order order' : List BlockId) :
    Agree { s with order := order } { s with order := order' } :=
  ⟨rfl, rfl, .refl _, fun _ => rfl, fun _ => rfl⟩

theorem Agree.feed {s t : Simulator α} (h : Agree s t) (x : Stimulus α) :
    Agree (s.feed x) (t.feed x) := by
  rw [feed_eq, feed_eq]
  exact ⟨h.fragment, h.cycles, h.around.feed x, h.values, h.memories⟩

theorem Agree.delayed {s t : Simulator α} (h : Agree s t) (b : BlockId) (initial : Value α) :
    s.delayed b initial = t.delayed b initial := by
  rw [Simulator.delayed, Simulator.delayed, h.memories]

variable [Scalar α]

/-- What a completed cycle has put out at an output is what the block makes of
the other outputs. -/
theorem Cycle.foreseen {s s' : Simulator α} (hf : s.fragment.WellFormed) (h : Cycle s s')
    {b : BlockId} {blk : Block α} (hblk : s.fragment.blocks[b]? = some blk) {q : PortId}
    (hq : blk.output = some q) : ∃ v, s'.value? q = some v ∧ Foreseen s s'.Carried q v := by
  obtain ⟨kind, hport⟩ := hf.output hblk hq
  have hf' : s'.fragment.WellFormed := by
    rw [h.fragment]
    exact hf
  have hsources : ∀ {args : List (Value α)}, Carries s.fragment s'.value? blk.inputs args →
      ∃ sources, List.Forall₂ (fun input source => s.fragment.producer? input = some source)
        blk.inputs sources ∧ List.Forall₂ s'.Carried sources args := by
    intro args hargs
    rw [← h.fragment] at hargs ⊢
    exact hargs.sources hf'
  cases h.blocks hblk with
  | delay hprimitive hout hvalue hargs _ =>
      rw [hq] at hout
      cases hout
      obtain ⟨sources, hfed, -⟩ := hsources hargs
      exact ⟨_, hvalue, .delay ⟨hblk, hprimitive, hq, hport, hfed⟩ rfl⟩
  | sink hprimitive _ =>
      have hsink := hf.sink hblk
      rw [hprimitive, hq] at hsink
      cases hsink
  | reaction hdelay _ hargs hout hkind hreact hvalue _ =>
      rw [hq] at hout
      cases hout
      obtain ⟨port, hport', rfl⟩ := Fragment.kindOf_eq_ok.mp hkind
      rw [hport] at hport'
      cases hport'
      obtain ⟨sources, hfed, hvalues⟩ := hsources hargs
      exact ⟨_, hvalue, .reaction ⟨hblk, rfl, hq, hport, hfed⟩ hdelay hvalues hreact⟩

/-- A completed cycle is an outlook on itself. -/
theorem Cycle.outlook {s s' : Simulator α} (hf : s.fragment.WellFormed) (h : Cycle s s') :
    Outlook s s'.Carried := by
  rintro q v ⟨⟨b, blk, hblk, hq⟩, hv⟩
  rw [h.fragment] at hblk
  obtain ⟨w, hw, hforeseen⟩ := h.foreseen hf hblk hq
  rw [hv] at hw
  cases hw
  exact hforeseen

/-- Simulators that agree foresee the same. -/
theorem Foreseen.agree {s t : Simulator α} {E : PortId → Value α → Prop} {q : PortId}
    {v : Value α} (h : Foreseen s E q v) (hagree : Agree s t) : Foreseen t E q v := by
  cases h with
  | delay hproduces hvalue =>
      rw [hagree.fragment] at hproduces
      exact .delay hproduces (hvalue.trans (hagree.delayed _ _))
  | reaction hproduces hdelay hargs hreact =>
      rw [hagree.fragment] at hproduces
      rw [hagree.around.react, hagree.memories] at hreact
      exact .reaction hproduces hdelay hargs hreact

/-! ### What a cycle leaves alone -/

/-- Ports that are no output, and memories of no block, are as they were in
`s`. -/
structure Untouched (s t : Simulator α) : Prop where
  fragment : t.fragment = s.fragment
  values : ∀ q, ¬ s.fragment.IsOutput q → t.value? q = s.value? q
  memories : ∀ b, s.fragment.blocks[b]? = none → t.memories.get? b = s.memories.get? b

section Untouched

variable {s t t' : Simulator α} {b : BlockId} {blk : Block α}

omit [Scalar α] in
theorem Untouched.remember (h : Untouched s t) (hblk : s.fragment.blocks[b]? = some blk)
    (m : Option (Memory α)) : Untouched s (t.remember b m) := by
  refine ⟨(remember_fragment t b m).trans h.fragment, fun q hq => ?_, fun c hc => ?_⟩
  · rw [value?_remember, h.values q hq]
  · have hne : c ≠ b := by
      rintro rfl
      rw [hblk] at hc
      cases hc
    rw [memories_remember_of_ne t m hne, h.memories c hc]

omit [Scalar α] in
theorem Untouched.put (h : Untouched s t) (hblk : s.fragment.blocks[b]? = some blk) {q : PortId}
    (hq : blk.output = some q) (v : Value α) : Untouched s (t.put q v) := by
  refine ⟨h.fragment, fun r hr => ?_, h.memories⟩
  have hne : r ≠ q := by
    rintro rfl
    exact hr ⟨b, blk, hblk, hq⟩
  rw [value?_put_of_ne t v hne, h.values r hr]

theorem Untouched.evaluate (h : Untouched s t) (hact : t.evaluate b = .ok t') :
    Untouched s t' := by
  obtain ⟨blk, hblk, hcases⟩ := evaluate_eq_ok hact
  rw [h.fragment] at hblk
  rcases hcases with ⟨initial, q, -, hq, rfl⟩ | ⟨slot, -, rfl⟩ |
    ⟨args, q, kind, v, m, -, -, -, hq, -, -, rfl⟩
  · exact h.put hblk hq _
  · exact h
  · exact (h.remember hblk m).put hblk hq v

omit [Scalar α] in
theorem Untouched.conclude (h : Untouched s t) (hact : t.conclude b = .ok t') :
    Untouched s t' := by
  obtain ⟨blk, hblk, hcases⟩ := conclude_eq_ok hact
  rw [h.fragment] at hblk
  rcases hcases with ⟨initial, args, -, -, rfl⟩ |
    ⟨slot, args, -, -, ⟨v, -, rfl⟩ | ⟨-, rfl⟩⟩ | ⟨-, -, rfl⟩
  · exact h.remember hblk _
  · exact ⟨h.fragment, h.values, h.memories⟩
  · exact h
  · exact h

omit [Scalar α] in
theorem Untouched.sweep {act : Simulator α → BlockId → Except (SimError α) (Simulator α)}
    (hact : ∀ {t t' : Simulator α} {b : BlockId}, Untouched s t → act t b = .ok t' →
      Untouched s t') (h : Untouched s t) {order : List BlockId} {u : Unit}
    (hrun : sweep act order t = .ok u t') : Untouched s t' := by
  rcases sweep_cases (I := fun _ => Untouched s) (fun (_ : order = _) => hact) h with
    ⟨t₁, hsweep, ht₁⟩ | ⟨_, _, _, _, _, _, hsweep, _⟩
  · rw [hrun] at hsweep
    cases hsweep
    exact ht₁
  · rw [hrun] at hsweep
    cases hsweep

theorem step_untouched {s' : Simulator α} (h : step s = .ok () s') : Untouched s s' := by
  have hbegin : Untouched s s := ⟨rfl, fun _ _ => rfl, fun _ _ => rfl⟩
  rw [step_apply] at h
  cases hfirst : Simulator.sweep Simulator.evaluate s.order s with
  | error e s₁ =>
      simp only [hfirst] at h
      cases h
  | ok u s₁ =>
      have hs₁ := hbegin.sweep (fun ht => ht.evaluate) hfirst
      simp only [hfirst] at h
      cases hsecond : Simulator.sweep Simulator.conclude s.order s₁ with
      | error e s₂ =>
          simp only [hsecond] at h
          cases h
      | ok u s₂ =>
          have hs₂ := hs₁.sweep (fun ht => ht.conclude) hsecond
          simp only [hsecond] at h
          cases h
          exact ⟨hs₂.fragment, hs₂.values, hs₂.memories⟩

end Untouched

/-! ### Two orders -/

section Orders

variable {s s' t t' : Simulator α}

/-- A cycle that is completed along one order is completed along the other,
with the same values at all ports. -/
theorem Agree.values_step (h : Agree s t) (hs : Ready s) (ht : Ready t)
    (hstep : step s = .ok () s') :
    ∃ t', step t = .ok () t' ∧ ∀ q, s'.value? q = t'.value? q := by
  have hcycle := step_eq_ok hs.wellFormed hs.schedule hstep
  have houtlook : Outlook t s'.Carried := fun q v hq =>
    (hcycle.outlook hs.wellFormed q v hq).agree h
  have hcomplete : ∀ {b : BlockId} {blk : Block α} {q : PortId},
      t.fragment.blocks[b]? = some blk → blk.output = some q → ∃ v, s'.Carried q v := by
    intro b blk q hblk hq
    rw [← h.fragment] at hblk
    obtain ⟨v, hv, -⟩ := hcycle.foreseen hs.wellFormed hblk hq
    refine ⟨v, ⟨b, blk, ?_, hq⟩, hv⟩
    rw [hcycle.fragment]
    exact hblk
  obtain ⟨t', hstep', hvalues⟩ := houtlook.step ht.wellFormed ht.schedule ht.fed hcomplete
  refine ⟨t', hstep', fun q => ?_⟩
  by_cases hq : s.fragment.IsOutput q
  · obtain ⟨b, blk, hblk, hout⟩ := hq
    obtain ⟨v, hv, -⟩ := hcycle.foreseen hs.wellFormed hblk hout
    rw [hv, hvalues ⟨⟨b, blk, by rw [hcycle.fragment]; exact hblk, hout⟩, hv⟩]
  · have hq' : ¬ t.fragment.IsOutput q := by
      rw [← h.fragment]
      exact hq
    rw [(step_untouched hstep).values q hq, (step_untouched hstep').values q hq', h.values]

omit [Scalar α] in
theorem Agree.slot? (h : Agree s t) (slot : Nat) : s.slot? slot = t.slot? slot :=
  h.around.slots slot

/-- All blocks remember the same after a cycle with the same values. -/
theorem Agree.memories_step (h : Agree s t) (hs : Ready s) (ht : Ready t)
    (hstep : step s = .ok () s') (hstep' : step t = .ok () t')
    (hvalues : ∀ q, s'.value? q = t'.value? q) (b : BlockId) :
    s'.memories.get? b = t'.memories.get? b := by
  have hcycle := step_eq_ok hs.wellFormed hs.schedule hstep
  have hcycle' := step_eq_ok ht.wellFormed ht.schedule hstep'
  cases hblk : s.fragment.blocks[b]? with
  | none =>
      have hblk' : t.fragment.blocks[b]? = none := by
        rw [← h.fragment]
        exact hblk
      rw [(step_untouched hstep).memories b hblk, (step_untouched hstep').memories b hblk',
        h.memories]
  | some blk =>
      have hblk' : t.fragment.blocks[b]? = some blk := by
        rw [← h.fragment]
        exact hblk
      refine (hcycle.blocks hblk).memory_congr (hcycle'.blocks hblk') h.around (h.memories b)
        (fun q _ => by rw [h.fragment]) ?_
      intro args args' hargs hargs'
      rw [h.fragment, funext hvalues] at hargs
      exact hargs.unique hargs'

/-- Slots that one block at most fills keep the same. -/
theorem Agree.slots_step (h : Agree s t) (hs : Ready s) (ht : Ready t)
    (hslots : t.fragment.SlotsApart) (hstep : step s = .ok () s') (hstep' : step t = .ok () t')
    (hvalues : ∀ q, s'.value? q = t'.value? q) (slot : Nat) : s'.slot? slot = t'.slot? slot := by
  refine (step_lastFill hs.wellFormed hs.schedule hstep slot).congr
    (step_lastFill ht.wellFormed ht.schedule hstep' slot) ?_ (h.slot? slot) ?_
  · -- A block that fills the slot along one order does so along the other.
    have hmem : ∀ b, b ∈ s.order.filter (s.fragment.storesTo slot) ↔
        b ∈ t.order.filter (t.fragment.storesTo slot) := by
      intro b
      rw [List.mem_filter, List.mem_filter, hs.schedule.complete, ht.schedule.complete,
        h.fragment]
    have hapart : ∀ b c, b ∈ t.order.filter (t.fragment.storesTo slot) →
        c ∈ t.order.filter (t.fragment.storesTo slot) → b = c := fun b c hb hc =>
      hslots _ _ _ (Fragment.storesTo_iff.mp (List.mem_filter.mp hb).2)
        (Fragment.storesTo_iff.mp (List.mem_filter.mp hc).2)
    generalize s.order.filter (s.fragment.storesTo slot) = writers at hmem
    generalize t.order.filter (t.fragment.storesTo slot) = writers' at hmem hapart
    cases hlast : writers.getLast? with
    | none =>
        obtain rfl := List.getLast?_eq_none_iff.mp hlast
        obtain rfl : writers' = [] := List.eq_nil_iff_forall_not_mem.mpr fun b hb =>
          List.not_mem_nil ((hmem b).mpr hb)
        rfl
    | some b =>
        have hb := (hmem b).mp (List.mem_of_getLast? hlast)
        obtain ⟨c, hc⟩ := Option.isSome_iff_exists.mp
          (List.getLast?_isSome.mpr (List.ne_nil_of_mem hb))
        rw [hc, hapart b c hb (List.mem_of_getLast? hc)]
  · intro b blk blk' v v' _ hblk hblk' hv hv'
    rw [h.fragment, hblk'] at hblk
    cases hblk
    rw [h.fragment, funext hvalues] at hv
    cases hv.unique hv'
    rfl

/-- **One cycle along two orders.** -/
theorem Agree.step (h : Agree s t) (hs : Ready s) (ht : Ready t)
    (hslots : t.fragment.SlotsApart) (hstep : step s = .ok () s') :
    ∃ t', Simulator.step t = .ok () t' ∧ Agree s' t' := by
  obtain ⟨t', hstep', hvalues⟩ := h.values_step hs ht hstep
  have hcycle := step_eq_ok hs.wellFormed hs.schedule hstep
  have hcycle' := step_eq_ok ht.wellFormed ht.schedule hstep'
  refine ⟨t', hstep', ⟨?_, ?_, ?_, hvalues, h.memories_step hs ht hstep hstep' hvalues⟩⟩
  · rw [hcycle.fragment, hcycle'.fragment, h.fragment]
  · rw [hcycle.cycles, hcycle'.cycles, h.cycles]
  · exact hcycle.same hcycle' h.around (h.slots_step hs ht hslots hstep hstep' hvalues)

end Orders

/-- The state after one cycle, if it is completed. -/
def stepped? (s : Simulator α) : Option (Simulator α) :=
  match Simulator.step s with
  | .ok _ s' => some s'
  | .error _ _ => none

/-- The state after a run, if it is completed. -/
def driven? (x : Nat → Stimulus α) (n : Nat) (s : Simulator α) : Option (Simulator α) :=
  (drive x n s).toOption

theorem stepped?_eq_some {s s' : Simulator α} :
    s.stepped? = some s' ↔ Simulator.step s = .ok () s' := by
  unfold stepped?
  cases Simulator.step s with
  | ok u t => simp
  | error e t => simp

theorem driven?_succ (x : Nat → Stimulus α) (n : Nat) (s : Simulator α) :
    driven? x (n + 1) s = (driven? x n s).bind fun s => (s.feed (x n)).stepped? := by
  unfold driven? stepped?
  rw [drive]
  cases drive x n s with
  | error e => rfl
  | ok t =>
      dsimp only [Except.toOption, Option.bind_some]
      cases Simulator.step (t.feed (x n)) with
      | ok u t' => rfl
      | error e t' => rfl

/-- What is and stays ready and agrees. -/
structure InStep (s t : Simulator α) : Prop where
  agree : Agree s t
  left : Ready s
  right : Ready t
  apart : s.fragment.SlotsApart

/-- Both cycles fail, or both are completed and the simulators agree again. -/
theorem InStep.stepped? {s t : Simulator α} (h : InStep s t) :
    Option.Rel InStep s.stepped? t.stepped? := by
  have hleft : ∀ s', s.stepped? = some s' → ∃ t', t.stepped? = some t' ∧ InStep s' t' := by
    intro s' hs'
    have hstep := stepped?_eq_some.mp hs'
    have hslots : t.fragment.SlotsApart := by
      rw [← h.agree.fragment]
      exact h.apart
    obtain ⟨t', hstep', hagree⟩ := h.agree.step h.left h.right hslots hstep
    have hcycle := step_eq_ok h.left.wellFormed h.left.schedule hstep
    have hcycle' := step_eq_ok h.right.wellFormed h.right.schedule hstep'
    refine ⟨t', stepped?_eq_some.mpr hstep', hagree, hcycle.ready h.left, hcycle'.ready h.right, ?_⟩
    rw [hcycle.fragment]
    exact h.apart
  cases hs : s.stepped? with
  | some s' =>
      obtain ⟨t', ht', hrel⟩ := hleft s' hs
      rw [ht']
      exact .some hrel
  | none =>
      cases ht : t.stepped? with
      | none => exact .none
      | some t' =>
          obtain ⟨s', hs', -⟩ :=
            h.agree.symm.step h.right h.left h.apart (stepped?_eq_some.mp ht)
          rw [stepped?_eq_some.mpr hs'] at hs
          cases hs

omit [Scalar α] in
theorem InStep.feed {s t : Simulator α} (h : InStep s t) (x : Stimulus α) :
    InStep (s.feed x) (t.feed x) := by
  refine ⟨h.agree.feed x, h.left.feed x, h.right.feed x, ?_⟩
  rw [feed_fragment]
  exact h.apart

/-- So do runs. -/
theorem InStep.driven? {s t : Simulator α} (h : InStep s t) (x : Nat → Stimulus α) (n : Nat) :
    Option.Rel InStep (driven? x n s) (driven? x n t) := by
  induction n with
  | zero => exact .some h
  | succ n ih =>
      rw [driven?_succ, driven?_succ]
      generalize hs : Simulator.driven? x n s = a at ih
      generalize ht : Simulator.driven? x n t = b at ih
      cases ih with
      | none => exact .none
      | some hrel => exact (hrel.feed (x n)).stepped?

/-- **Simulation does not depend on the evaluation order.**  Let a fragment
made by calls be valid and its sinks fill different slots.  From any state, a
cycle along one legal order and a cycle along another either both fail or are
both completed, with the same values at all ports, the same memories, slots,
time and number of cycles.  The same holds for runs under any stimuli. -/
theorem order_independent {f : Fragment α} (hf : f.Reachable) (hvalid : f.validate = .ok ())
    (hslots : f.SlotsApart) {s : Simulator α} (hs : s.fragment = f) {order order' : List BlockId}
    (horder : f.Legal order) (horder' : f.Legal order') :
    Option.Rel Agree ({ s with order } : Simulator α).stepped?
        ({ s with order := order' } : Simulator α).stepped? ∧
      ∀ x n, Option.Rel Agree (driven? x n { s with order })
        (driven? x n { s with order := order' }) := by
  have hwell := hf.wellFormed
  have hfed := (Fragment.validate_eq_ok hvalid).2
  subst hs
  have hinstep : InStep { s with order } { s with order := order' } :=
    ⟨.orders s order order', ⟨hwell, hfed, horder.schedules hwell⟩,
      ⟨hwell, hfed, horder'.schedules hwell⟩, hslots⟩
  have hagree : ∀ {a b : Option (Simulator α)}, Option.Rel InStep a b → Option.Rel Agree a b := by
    intro a b hab
    cases hab with
    | none => exact .none
    | some h => exact .some h.agree
  exact ⟨hagree hinstep.stepped?, fun x n => hagree (hinstep.driven? x n)⟩

/-- The counter in its slot does not depend on the order in which it and the two
delays are visited. -/
theorem counter_order_independent :
    Sample.counter.Legal [0, 1, 2, 3, 4, 5] ∧ Sample.counter.Legal [5, 1, 4, 0, 2, 3] ∧
      ∃ s : Simulator Float,
        Option.Rel Agree (driven? Sample.reset 2 { s with order := [0, 1, 2, 3, 4, 5] })
          (driven? Sample.reset 2 { s with order := [5, 1, 4, 0, 2, 3] }) ∧
        (driven? Sample.reset 2 { s with order := [0, 1, 2, 3, 4, 5] }).isSome = true := by
  have hreachable : Sample.counter.Reachable := ⟨_, rfl⟩
  have hlegal : Sample.counter.Legal [0, 1, 2, 3, 4, 5] :=
    hreachable.wellFormed.legal_of_edges (by decide) (by decide +kernel) (by decide +kernel)
  have hlegal' : Sample.counter.Legal [5, 1, 4, 0, 2, 3] :=
    hreachable.wellFormed.legal_of_edges (by decide) (by decide +kernel) (by decide +kernel)
  have hsingle : ∀ b < 6, Sample.counter.blocks[b]?.any (·.primitive.isSink) = true → b = 3 := by
    decide +kernel
  have hslots : Sample.counter.SlotsApart := by
    have hwriter : ∀ b slot, Sample.counter.Writes b slot → b = 3 := by
      rintro b slot ⟨blk, hblk, hprimitive⟩
      refine hsingle b (List.getElem?_eq_some_iff.mp hblk).1 ?_
      rw [hblk, Option.any_some, hprimitive]
      rfl
    intro b c slot hb hc
    rw [hwriter b slot hb, hwriter c slot hc]
  obtain ⟨-, hruns⟩ := order_independent hreachable (by decide +kernel) hslots
    (s := { fragment := Sample.counter, order := [], around := { period := 1, time := 0 } }) rfl
    hlegal hlegal'
  exact ⟨hlegal, hlegal', _, hruns Sample.reset 2, by decide +kernel⟩

end Simulator

end SignalNet
