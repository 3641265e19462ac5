import SignalNet.Proofs.Net.Typing
import SignalNet.Proofs.Scalar.Double

/-!
# Typed networks are sound

In a typed network that is fed values of the right kinds, every value has the
kind of the port that carries it, through delays and slots and also after
cycles that fail (`Simulator.Typed`).

* `Simulator.Typed.evaluate` and `Simulator.Typed.conclude` are the steps for
  one block;
* `Simulator.Typed.step` is the step for one cycle, and says how it ends;
* `Simulator.Typed.carryOn` is the result for whole runs, and
  `Simulator.Typed.drive` says what the ports carry after completed ones.
-/

namespace SignalNet

open Computing

variable {α : Type} [Scalar α]

/-- A rate limiter always has a range to keep to: the product of a positive
rate and a positive period is no NaN and not negative. -/
def Scalar.Ranged (α : Type) [Scalar α] : Prop :=
  ∀ rate period : α, Scalar.isFinite rate = true → Scalar.le rate 0 = false →
    Scalar.isFinite period = true → Scalar.lt 0 period = true →
    Scalar.le (-(rate * period)) (rate * period) = true

theorem Double.ranged : Scalar.Ranged Float :=
  Double.neg_mul_le_mul

namespace Simulator

/-- The state of a typed network: every value that a port carries, that a
delay remembers or that is set from outside has the right kind. -/
structure Typed (f : Fragment α) (s : Simulator α) : Prop where
  fragment : s.fragment = f
  schedule : f.Schedules s.order
  finite : Scalar.isFinite s.around.period = true
  positive : Scalar.lt 0 s.around.period = true
  values : ∀ {q : PortId} {v : Value α}, s.value? q = some v → f.kindOf q = .ok v.kind
  delays : ∀ {b : BlockId} {blk : Block α} {initial v : Value α} {q : PortId},
    f.blocks[b]? = some blk → blk.primitive = .pre initial → blk.output = some q →
    s.memories.get? b = some (.delay v) → f.kindOf q = .ok v.kind
  around : ∀ primitive kind, f.Reads primitive kind → s.around.Fits kind primitive

variable {f : Fragment α} {s s' : Simulator α}

omit [Scalar α] in
/-- The arguments of a block have the kinds of its inputs. -/
theorem Carries.kinds (hf : f.WellFormed) {values : PortId → Option (Value α)}
    (hvalues : ∀ {q : PortId} {v : Value α}, values q = some v → f.kindOf q = .ok v.kind)
    {inputs : List PortId} {args : List (Value α)} (h : Carries f values inputs args)
    {kinds : List Kind}
    (hkinds : List.Forall₂ (fun input k => f.kindOf input = .ok k) inputs kinds) :
    args.map Value.kind = kinds := by
  induction h generalizing kinds with
  | nil =>
      cases hkinds
      rfl
  | cons hv _ ih =>
      cases hkinds with
      | cons hk hrest =>
          obtain ⟨source, hproducer, hvalue⟩ := hv
          have hkind := hvalues hvalue
          rw [hf.kindOf_producer hproducer, hk] at hkind
          rw [List.map_cons, ih hrest, Except.ok.inj hkind]

/-- A rate limiter of a typed network has a range to keep to. -/
theorem Typed.inRange (h : Typed f s) (hranged : Scalar.Ranged α) {primitive : Primitive α}
    {kinds : List Kind} {kind : Kind} (haccepts : primitive.Accepts kinds kind) (rate : α)
    (hrate : primitive = .rateLimit rate) :
    Scalar.le (-(rate * s.around.period)) (rate * s.around.period) = true := by
  subst hrate
  obtain ⟨-, -, hfinite, hpositive⟩ := haccepts
  exact hranged rate s.around.period hfinite hpositive h.finite h.positive

/-- A block of a typed network that is no delay reacts with a value of the
kind of its output, unless it divides integers that have no quotient. -/
theorem Typed.react (h : Typed f s) (hranged : Scalar.Ranged α) (hf : f.WellFormed)
    (ht : f.Typed) {b : BlockId} {blk : Block α} {q : PortId} {args : List (Value α)}
    (hblk : f.blocks[b]? = some blk) (hout : blk.output = some q)
    (hdelay : blk.primitive.isDelay = false) (hargs : Carries f s.value? blk.inputs args)
    {kind : Kind} (hkind : f.kindOf q = .ok kind) (memory : Option (Memory α)) :
    (∃ v m, blk.primitive.react s.around kind memory args = .ok (v, m) ∧ v.kind = kind) ∨
      (blk.primitive = .binary .div ∧ ∃ m n, args = [.integer m, .integer n] ∧ Undivided m n ∧
        blk.primitive.react s.around kind memory args = .error .rejected) := by
  obtain ⟨kinds, kind', hinputs, hkind', haccepts⟩ := ht hblk q hout
  rw [hkind] at hkind'
  cases hkind'
  have hrange := h.inRange hranged haccepts
  rw [← hargs.kinds hf h.values hinputs] at haccepts
  exact Primitive.react_typed haccepts hdelay
    (h.around _ _ ⟨b, blk, q, hblk, rfl, hout, hkind⟩) hrange memory

omit [Scalar α] in
/-- A value of the right kind may be put out. -/
theorem put_kinds {q : PortId} {v : Value α} (hv : f.kindOf q = .ok v.kind)
    (hvalues : ∀ {r : PortId} {w : Value α}, s.value? r = some w → f.kindOf r = .ok w.kind)
    {r : PortId} {w : Value α} (hw : (s.put q v).value? r = some w) : f.kindOf r = .ok w.kind := by
  by_cases hrq : r = q
  · subst hrq
    rw [value?_put_self] at hw
    cases hw
    exact hv
  · rw [value?_put_of_ne _ _ hrq] at hw
    exact hvalues hw

/-- Evaluating a block keeps a network typed. -/
theorem Typed.evaluate (h : Typed f s) (hranged : Scalar.Ranged α) (hf : f.WellFormed)
    (ht : f.Typed) {b : BlockId} (hevaluate : s.evaluate b = .ok s') : Typed f s' := by
  obtain ⟨blk, hblk, hcases⟩ := evaluate_eq_ok hevaluate
  rw [h.fragment] at hblk
  rcases hcases with ⟨initial, q, hprimitive, hout, rfl⟩ | ⟨slot, -, rfl⟩ |
    ⟨args, q, kind, v, m, hdelay, -, hargs, hout, hkind, hreact, rfl⟩
  · -- A delay puts out what it remembers, or its initial value.
    have hdelayed : f.kindOf q = .ok (s.delayed b initial).kind := by
      unfold delayed
      split
      · next w hw => exact h.delays hblk hprimitive hout hw
      · obtain ⟨kinds, kind, -, hkind, haccepts⟩ := ht hblk q hout
        rw [hprimitive] at haccepts
        rw [hkind, haccepts.2]
    exact ⟨h.fragment, h.schedule, h.finite, h.positive, put_kinds hdelayed h.values, h.delays,
      h.around⟩
  · exact h
  · rw [h.fragment] at hargs hkind
    have hv : f.kindOf q = .ok v.kind := by
      rcases h.react hranged hf ht hblk hout hdelay hargs hkind (s.memories.get? b) with
        ⟨w, m', hok, hwkind⟩ | ⟨-, -, -, -, -, herror⟩
      · rw [hreact] at hok
        cases hok
        rw [hkind, hwkind]
      · rw [hreact] at herror
        cases herror
    have hremember : ∀ {r : PortId} {w : Value α}, (s.remember b m).value? r = some w →
        f.kindOf r = .ok w.kind := by
      intro r w hw
      rw [value?_remember] at hw
      exact h.values hw
    refine ⟨?_, ?_, ?_, ?_, put_kinds hv hremember, ?_, ?_⟩
    · exact (remember_fragment s b m).trans h.fragment
    · show f.Schedules (s.remember b m).order
      rw [remember_order]
      exact h.schedule
    · show Scalar.isFinite (s.remember b m).around.period = true
      rw [remember_around]
      exact h.finite
    · show Scalar.lt 0 (s.remember b m).around.period = true
      rw [remember_around]
      exact h.positive
    · intro c blk' initial w r hblk' hprimitive hr hmemory
      have hne : c ≠ b := by
        rintro rfl
        rw [hblk] at hblk'
        cases hblk'
        rw [hprimitive] at hdelay
        cases hdelay
      have hold : (s.remember b m).memories.get? c = some (.delay w) := hmemory
      rw [memories_remember_of_ne s m hne] at hold
      exact h.delays hblk' hprimitive hr hold
    · intro primitive kind' hreads
      show (s.remember b m).around.Fits kind' primitive
      rw [remember_around]
      exact h.around primitive kind' hreads

/-- Filling a slot with a value of its kind keeps a network typed. -/
theorem Typed.setSlot (h : Typed f s) {slot : Nat} {v : Value α}
    (hv : ∀ kind, f.Reads (.load slot) kind → v.kind = kind) : Typed f (s.setSlot slot v) := by
  refine ⟨h.fragment, h.schedule, h.finite, h.positive, h.values, h.delays, ?_⟩
  intro primitive kind hreads
  have hbefore := h.around primitive kind hreads
  cases primitive with
  | load other =>
      intro w hw
      rcases Table.get?_insert_cases hw with ⟨rfl, rfl⟩ | hold
      · exact hv kind hreads
      · exact hbefore w hold
  | _ => exact hbefore

/-- What a block does at the end of a cycle keeps a network typed. -/
theorem Typed.conclude (h : Typed f s) (hf : f.WellFormed) (ht : f.Typed)
    (hslots : f.SlotsAgree) {b : BlockId} (hconclude : s.conclude b = .ok s') : Typed f s' := by
  obtain ⟨blk, hblk, hcases⟩ := conclude_eq_ok hconclude
  rw [h.fragment] at hblk
  rcases hcases with ⟨initial, args, hprimitive, hargs, rfl⟩ |
    ⟨slot, args, hprimitive, hargs, ⟨v, hhead, rfl⟩ | ⟨-, rfl⟩⟩ | ⟨-, -, rfl⟩
  · -- A delay remembers its argument, which has the kind of its output.
    rw [h.fragment] at hargs
    refine ⟨?_, ?_, ?_, ?_, ?_, ?_, ?_⟩
    · rw [remember_fragment]
      exact h.fragment
    · rw [remember_order]
      exact h.schedule
    · rw [remember_around]
      exact h.finite
    · rw [remember_around]
      exact h.positive
    · intro q v hq
      rw [value?_remember] at hq
      exact h.values hq
    · intro c blk' initial' v q hblk' hprimitive' hout hmemory
      by_cases hcb : c = b
      · subst hcb
        rw [hblk] at hblk'
        cases hblk'
        obtain ⟨kinds, kind, hinputs, hkind, haccepts⟩ := ht hblk q hout
        rw [hprimitive] at haccepts
        have hkinds := hargs.kinds hf h.values hinputs
        rw [haccepts.1] at hkinds
        obtain ⟨w, rest, rfl, hw, -⟩ := List.map_eq_cons_iff.mp hkinds
        rw [memories_remember_self] at hmemory
        cases hmemory
        rw [hkind, hw]
      · rw [memories_remember_of_ne s _ hcb] at hmemory
        exact h.delays hblk' hprimitive' hout hmemory
    · intro primitive kind hreads
      rw [remember_around]
      exact h.around primitive kind hreads
  · -- A sink fills its slot with a value of the kind of its input.
    rw [h.fragment] at hargs
    refine h.setSlot ?_
    intro kind hreads
    cases hinputs : blk.inputs with
    | nil =>
        rw [hinputs] at hargs
        cases hargs
        cases hhead
    | cons input rest =>
        rw [hinputs] at hargs
        obtain ⟨w, _, ⟨source, hproducer, hvalue⟩, -, rfl⟩ := List.forall₂_cons_left_iff.mp hargs
        cases hhead
        have hkind := h.values hvalue
        rw [hf.kindOf_producer hproducer] at hkind
        have hstores : f.SlotKind slot v.kind :=
          Or.inr ⟨b, blk, input, hblk, hprimitive, by simp [hinputs], hkind⟩
        exact hslots slot v.kind kind hstores (Or.inl hreads)
  · exact h
  · exact h

/-- The tick at the end of a cycle keeps a network typed. -/
theorem Typed.tick (h : Typed f s) : Typed f (Simulator.tick s) := by
  refine ⟨h.fragment, h.schedule, h.finite, h.positive, h.values, h.delays, ?_⟩
  intro primitive kind hreads
  have hbefore := h.around primitive kind hreads
  cases primitive <;> exact hbefore

/-- A stimulus that fits keeps a network typed. -/
theorem Typed.feed (h : Typed f s) {x : Stimulus α} (hx : x.Fits f) : Typed f (s.feed x) := by
  rw [feed_eq]
  exact ⟨h.fragment, h.schedule, h.finite, h.positive, h.values, h.delays,
    Surroundings.Fits.feed h.around hx⟩

/-- A network that has just been started is typed. -/
theorem typed_start (hf : f.WellFormed) {period : α} (hfinite : Scalar.isFinite period = true)
    (hpositive : Scalar.lt 0 period = true) (h : start f period = .ok s) : Typed f s := by
  obtain ⟨horder, -, hs⟩ := start_eq_ok h
  have hschedule := Fragment.schedules_of_evaluationOrder hf horder
  rw [hs]
  refine ⟨rfl, hschedule, hfinite, hpositive, ?_, ?_, ?_⟩
  · intro q v hq
    simp [value?, Table.get?] at hq
  · intro b blk initial v q _ _ _ hmemory
    simp [Table.get?] at hmemory
  · intro primitive kind _
    exact Surroundings.fits_start period 0 kind primitive

omit [Scalar α] in
/-- What every act of a sweep keeps, the sweep keeps, however it ends. -/
theorem sweep_keeps {act : Simulator α → BlockId → Except (SimError α) (Simulator α)}
    {I : Simulator α → Prop}
    (hact : ∀ {s s' : Simulator α} {b : BlockId}, I s → act s b = .ok s' → I s')
    (order : List BlockId) {s : Simulator α} (h : I s) : I (finalState (sweep act order s)) := by
  induction order generalizing s with
  | nil => exact h
  | cons b rest ih =>
      cases hb : act s b with
      | error e =>
          simp only [sweep, hb]
          exact h
      | ok next =>
          simp only [sweep, hb]
          exact ih (hact h hb)

/-- A cycle keeps a network typed, even if it fails. -/
theorem Typed.finalState_step (h : Typed f s) (hranged : Scalar.Ranged α) (hf : f.WellFormed)
    (ht : f.Typed) (hslots : f.SlotsAgree) : Typed f (finalState (Simulator.step s)) := by
  have hfirst : Typed f (finalState (sweep Simulator.evaluate s.order s)) :=
    sweep_keeps (fun hs hb => hs.evaluate hranged hf ht hb) s.order h
  rw [step_apply]
  cases hsweep : sweep Simulator.evaluate s.order s with
  | error e s₁ =>
      rw [hsweep] at hfirst
      exact hfirst
  | ok u s₁ =>
      rw [hsweep] at hfirst
      have hsecond : Typed f (finalState (sweep Simulator.conclude s.order s₁)) :=
        sweep_keeps (fun hs hb => hs.conclude hf ht hslots hb) s.order hfirst
      simp only
      cases hsweep₂ : sweep Simulator.conclude s.order s₁ with
      | error e s₂ =>
          rw [hsweep₂] at hsecond
          exact hsecond
      | ok u s₂ =>
          rw [hsweep₂] at hsecond
          exact hsecond.tick

/-- Every output port carries a value of its kind. -/
def Complete (f : Fragment α) (s : Simulator α) : Prop :=
  ∀ {q : PortId} {port : Port}, f.ports[q]? = some port → port.direction = .output →
    ∃ v, s.value? q = some v ∧ v.kind = port.kind

omit [Scalar α] in
/-- A port for booleans carries one. -/
theorem Complete.boolean (h : Complete f s) {q : PortId} (hq : f.Offers q .boolean) :
    ∃ b, s.value? q = some (.boolean b) := by
  obtain ⟨port, hport, hout, hkind⟩ := hq
  obtain ⟨v, hv, hvkind⟩ := h hport hout
  obtain ⟨b, rfl⟩ := Value.asBoolean?_of_kind (hvkind.trans hkind)
  exact ⟨b, hv⟩

/-- An error that says that a block divides integers without a quotient. -/
def NoQuotient (f : Fragment α) (e : SimError α) : Prop :=
  ∃ (b : BlockId) (blk : Block α) (m n : Int64), f.blocks[b]? = some blk ∧
    blk.primitive = .binary .div ∧ Undivided m n ∧
    e = .rejected blk.primitive.name b [.integer m, .integer n]

/-- The only way in which a block of a typed network can fail. -/
theorem Typed.evaluate_error (h : Typed f s') (hranged : Scalar.Ranged α) (hf : f.WellFormed)
    (ht : f.Typed) {b : BlockId} {blk : Block α} (hblk : f.blocks[b]? = some blk)
    (hcarries : blk.primitive.isDelay = false → ∃ args, Carries f s'.value? blk.inputs args)
    {e : SimError α} (herror : s'.evaluate b = .error e) : NoQuotient f e := by
  have hfragment := h.fragment
  rw [← hfragment] at hf hblk hcarries
  obtain ⟨args, fault, hrefuses, rfl⟩ := evaluate_refuses hf hblk hcarries herror
  obtain ⟨q, kind, hout, hkind, hreacts⟩ := hrefuses.reacts
  have hargs := hrefuses.carries
  rw [hfragment] at hf hblk hargs hkind
  rcases h.react hranged hf ht hblk hout hrefuses.noDelay hargs hkind (s'.memories.get? b) with
    ⟨v, m, hok, -⟩ | ⟨hdiv, m, n, rfl, hundivided, hrejected⟩
  · rw [hreacts] at hok
    cases hok
  · rw [hreacts] at hrejected
    cases hrejected
    exact ⟨b, blk, m, n, hblk, hdiv, hundivided, rfl⟩

/-- **One cycle of a typed network.**  It is completed and leaves a value of
the right kind at every output port, or it stops at integers that have no
quotient.  The network stays typed in both cases. -/
theorem Typed.step (h : Typed f s) (hranged : Scalar.Ranged α) (hf : f.WellFormed)
    (ht : f.Typed) (hslots : f.SlotsAgree) (hfed : f.openInput? = none) :
    Typed f (finalState (Simulator.step s)) ∧
      ((∃ s', Simulator.step s = .ok () s' ∧ Complete f s') ∨
        ∃ e s', Simulator.step s = .error e s' ∧ NoQuotient f e) := by
  have hfinal := h.finalState_step hranged hf ht hslots
  refine ⟨hfinal, ?_⟩
  have hfs : s.fragment.WellFormed := by
    rw [h.fragment]
    exact hf
  have hschedule : s.fragment.Schedules s.order := by
    rw [h.fragment]
    exact h.schedule
  have hfeds : s.fragment.openInput? = none := by
    rw [h.fragment]
    exact hfed
  rcases step_cases hfs hschedule hfeds with ⟨s₁, s₂, hprogress, hconcluding, hstep⟩ |
    ⟨done, b, rest, e, s', hsplit, hprogress, herror, hstep⟩
  · rw [hstep] at hfinal
    refine Or.inl ⟨Simulator.tick s₂, hstep, ?_⟩
    intro q port hport hout
    obtain ⟨blk, hblk, -, houtput⟩ := hf.owner hport
    have hb : port.block ∈ s.order :=
      (h.schedule.complete _).mpr (List.getElem?_eq_some_iff.mp hblk).1
    obtain ⟨blk', hblk', hsettled⟩ := hprogress.settled hb
    rw [h.fragment, hblk] at hblk'
    cases hblk'
    obtain ⟨v, hv⟩ := hsettled.value (hf.sink hblk) (houtput hout)
    have hvalue : (Simulator.tick s₂).value? q = some v := by
      show s₂.values.get? q = some v
      rw [hconcluding.values]
      exact hv
    have hkind := hfinal.values hvalue
    obtain ⟨port', hport', hpk⟩ := Fragment.kindOf_eq_ok.mp hkind
    rw [hport] at hport'
    cases hport'
    exact ⟨v, hvalue, hpk.symm⟩
  · rw [hstep] at hfinal
    refine Or.inr ⟨e, s', hstep, ?_⟩
    have hb : b < f.blocks.length := (h.schedule.complete b).mp (by rw [hsplit]; simp)
    obtain ⟨blk, hblk⟩ : ∃ blk, f.blocks[b]? = some blk := ⟨_, List.getElem?_eq_getElem hb⟩
    refine hfinal.evaluate_error hranged hf ht hblk ?_ herror
    intro hdelay
    have hblks : s.fragment.blocks[b]? = some blk := by
      rw [h.fragment]
      exact hblk
    rw [← h.fragment]
    exact hprogress.carries hfs hfeds hblks fun hinput hsource _ hport =>
      hschedule.fed hsplit hblks hdelay hinput hsource hport

/-- Run `n` cycles, each after its stimulus, and go on after cycles that
fail. -/
def carryOn (x : Nat → Stimulus α) : Nat → Simulator α → Simulator α
  | 0, s => s
  | n + 1, s => finalState (Simulator.step ((carryOn x n s).feed (x n)))

/-- **A run of a typed network.** -/
theorem Typed.carryOn {s₀ : Simulator α} (h : Typed f s₀) (hranged : Scalar.Ranged α)
    (hf : f.WellFormed) (ht : f.Typed) (hslots : f.SlotsAgree) (hfed : f.openInput? = none)
    {x : Nat → Stimulus α} (hx : ∀ n, (x n).Fits f) (n : Nat) :
    Typed f (Simulator.carryOn x n s₀) := by
  induction n with
  | zero => exact h
  | succ n ih => exact ((ih.feed (hx n)).step hranged hf ht hslots hfed).1

/-- After a run of completed cycles a typed network carries a value of its kind
at every output port. -/
theorem Typed.drive {s₀ : Simulator α} (h : Typed f s₀) (hranged : Scalar.Ranged α)
    (hf : f.WellFormed) (ht : f.Typed) (hslots : f.SlotsAgree) (hfed : f.openInput? = none)
    {x : Nat → Stimulus α} (hx : ∀ n, (x n).Fits f) {n : Nat}
    (hdrive : Simulator.drive x (n + 1) s₀ = .ok s) : Complete f s := by
  obtain ⟨before, hbefore, hlast⟩ := drive_succ_eq_ok.mp hdrive
  have htyped : Typed f before := by
    refine drive_induct (I := fun _ s => Typed f s) h ?_ hbefore
    intro m s s' hs hstep
    have hkept := ((hs.feed (hx m)).step hranged hf ht hslots hfed).1
    rwa [hstep] at hkept
  obtain ⟨-, ⟨s', hstep, hcomplete⟩ | ⟨e, s', hstep, -⟩⟩ :=
    (htyped.feed (hx n)).step hranged hf ht hslots hfed
  · rw [hlast] at hstep
    cases hstep
    exact @hcomplete
  · rw [hlast] at hstep
    cases hstep

end Simulator

end SignalNet
