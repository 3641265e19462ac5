import SignalNet.Proofs.Net.Readiness

/-!
# Cycles that stop

A cycle that fails stops at a block, and is not counted: clock, slots and delays
are entered at the end of a cycle only, so they are as they were.  Filters, edge
detectors, latches and timers do not wait for the end.  They are *eager*
(`Primitive.isEager`): each enters into its memory as soon as it is evaluated, so
those in front of the block that fails have moved on by one cycle that never
was.

* `Simulator.Stopped` says exactly what a failed cycle leaves.
* `Simulator.Abreast` relates two networks that go on alike.  It is kept by
  evaluating and concluding block by block (`Abreast.evaluate`,
  `Abreast.conclude`), by a cycle (`Abreast.step`) and by every call.
* `Simulator.failed_cycles_keep` puts both together: as long as no cycle fails
  behind an eager block, the state is that of a run in which the failed cycles
  have been left out.
-/

namespace SignalNet

open Computing

variable {α : Type}

/-- A primitive that enters into its memory while the cycle is still going on:
a filter, an edge detector, a latch or a timer.  A delay waits for the end. -/
def Primitive.isEager : Primitive α → Bool
  | smooth _ | rateLimit _ | edge _ | latch | timer _ => true
  | _ => false

/-- The eager primitives are those that return something to remember. -/
theorem Primitive.react_remembers [Scalar α] {around : Surroundings α} {kind : Kind}
    {memory m : Option (Memory α)} {primitive : Primitive α} {args : List (Value α)} {v : Value α}
    (h : primitive.react around kind memory args = .ok (v, m)) :
    m.isSome = primitive.isEager := by
  unfold react at h
  split at h
  -- A reaction is written out, comes from an operator, or is made in two steps.
  all_goals first
    | (cases h <;> rfl)
    | (obtain ⟨-, rfl⟩ := operator_eq_ok.mp h; rfl)
    | (obtain ⟨_, -, h⟩ := except_bind_eq_ok.mp h; cases h; rfl)

/-- An eager block stands at the position. -/
def Fragment.isEager (f : Fragment α) (b : BlockId) : Bool :=
  f.blocks[b]?.any (·.primitive.isEager)

theorem Fragment.isEager_eq {f : Fragment α} {b : BlockId} {blk : Block α}
    (h : f.blocks[b]? = some blk) : f.isEager b = blk.primitive.isEager := by
  rw [Fragment.isEager, h]
  rfl

namespace Simulator

/-! ### What a failed cycle leaves -/

/-- The blocks that a sweep visits before it stops. -/
def visited (act : Simulator α → BlockId → Except (SimError α) (Simulator α)) :
    List BlockId → Simulator α → List BlockId
  | [], _ => []
  | b :: rest, s =>
    match act s b with
    | .error _ => []
    | .ok next => b :: visited act rest next

/-- A sweep stops at the block behind those that it has visited. -/
theorem sweep_stops {act : Simulator α → BlockId → Except (SimError α) (Simulator α)}
    {order : List BlockId} {s s' : Simulator α} {e : SimError α}
    (h : sweep act order s = .error e s') :
    ∃ b rest, order = visited act order s ++ b :: rest ∧
      sweep act (visited act order s) s = .ok () s' ∧ act s' b = .error e := by
  induction order generalizing s with
  | nil => cases h
  | cons b rest ih =>
      cases hact : act s b with
      | error e' =>
          simp only [sweep, hact] at h
          cases h
          simp only [visited, hact]
          exact ⟨b, rest, rfl, rfl, hact⟩
      | ok next =>
          simp only [sweep, hact] at h
          obtain ⟨c, behind, hsplit, hsweep, herror⟩ := ih h
          simp only [visited, hact, sweep]
          exact ⟨c, behind, congrArg (b :: ·) hsplit, hsweep, herror⟩

variable [Scalar α]

/-- The blocks that a cycle evaluates before it stops. -/
def evaluated (s : Simulator α) : List BlockId :=
  visited evaluate s.order s

/-- What a cycle that fails leaves of the network: everything, but for the
memories of the eager blocks that it has evaluated. -/
structure Stopped (s s' : Simulator α) : Prop where
  fragment : s'.fragment = s.fragment
  order : s'.order = s.order
  /-- Clock, inputs, sensors and slots. -/
  around : s'.around = s.around
  cycles : s'.cycles = s.cycles
  kept : ∀ {b : BlockId}, (b ∈ s.evaluated → s.fragment.isEager b = false) →
    s'.memories.get? b = s.memories.get? b
  /-- The others remember what they would have remembered after the cycle. -/
  advanced : ∀ {b : BlockId}, b ∈ s.evaluated → s.fragment.isEager b = true →
    ∃ blk args q kind v m, s.fragment.blocks[b]? = some blk ∧
      Carries s.fragment s'.value? blk.inputs args ∧ blk.output = some q ∧
      s.fragment.kindOf q = .ok kind ∧
      blk.primitive.react s.around kind (s.memories.get? b) args = .ok (v, some m) ∧
      s'.memories.get? b = some m

/-- An evaluated block that is not eager remembers what it did. -/
theorem Settled.kept {s s' : Simulator α} {b : BlockId} {blk : Block α}
    (h : Settled s s' b blk) (heager : blk.primitive.isEager = false) :
    s'.memories.get? b = s.memories.get? b := by
  cases h with
  | delay _ _ _ hmemory => exact hmemory
  | sink _ hmemory => exact hmemory
  | reaction _ _ _ _ _ hreact _ hmemory =>
      have hnone := Primitive.react_remembers hreact
      rw [heager, Option.isSome_eq_false_iff, Option.isNone_iff_eq_none] at hnone
      rw [hmemory, hnone, Option.none_or]

/-- An evaluated block that is eager remembers what its reaction says. -/
theorem Settled.advanced {s s' : Simulator α} {b : BlockId} {blk : Block α}
    (h : Settled s s' b blk) (heager : blk.primitive.isEager = true) :
    ∃ args q kind v m, Carries s.fragment s'.value? blk.inputs args ∧ blk.output = some q ∧
      s.fragment.kindOf q = .ok kind ∧
      blk.primitive.react s.around kind (s.memories.get? b) args = .ok (v, some m) ∧
      s'.memories.get? b = some m := by
  cases h with
  | delay hprimitive _ _ _ =>
      rw [hprimitive] at heager
      cases heager
  | sink hprimitive _ =>
      rw [hprimitive] at heager
      cases heager
  | reaction _ _ hargs hout hkind hreact _ hmemory =>
      obtain ⟨m, rfl⟩ := Option.isSome_iff_exists.mp
        ((Primitive.react_remembers hreact).trans heager)
      exact ⟨_, _, _, _, m, hargs, hout, hkind, hreact, hmemory⟩

/-- **What a failed cycle leaves.**  It stops at the block behind those that it
has evaluated. -/
theorem Ready.stopped {s s' : Simulator α} (h : Ready s) {e : SimError α}
    (hstep : Simulator.step s = .error e s') :
    (∃ b rest, s.order = s.evaluated ++ b :: rest ∧ s'.evaluate b = .error e) ∧
      Stopped s s' := by
  obtain ⟨b, rest, hsplit, hsweep, herror⟩ : ∃ b rest, s.order = s.evaluated ++ b :: rest ∧
      sweep evaluate s.evaluated s = .ok () s' ∧ s'.evaluate b = .error e :=
    sweep_stops (step_eq_error h.wellFormed h.schedule h.fed hstep)
  have hprogress : Progress s s.evaluated s' := by
    -- The evaluated blocks are a beginning of the order.
    have hnext : ∀ {done : List BlockId} {c : BlockId} {behind : List BlockId}
        {t t' : Simulator α}, s.evaluated = done ++ c :: behind → Progress s done t →
        t.evaluate c = .ok t' → Progress s (done ++ [c]) t' := by
      intro done c behind t t' hparts hdone hact
      have horder : s.order = done ++ c :: (behind ++ b :: rest) := by
        rw [hsplit, hparts, List.append_assoc, List.cons_append]
      exact hdone.evaluate h.wellFormed h.schedule horder hact
    have hends := sweep_cases hnext (progress_refl s)
    rw [hsweep] at hends
    rcases hends with ⟨s'', hdone, hprogress⟩ | ⟨_, _, _, _, _, -, hstopped, -⟩
    · cases hdone
      exact hprogress
    · cases hstopped
  refine ⟨⟨b, rest, hsplit, herror⟩, hprogress.fragment, hprogress.order, hprogress.around,
    hprogress.cycles, ?_, ?_⟩
  · intro c hkept
    by_cases hc : c ∈ s.evaluated
    · obtain ⟨blk, hblk, hsettled⟩ := hprogress.settled hc
      exact hsettled.kept ((Fragment.isEager_eq hblk).symm.trans (hkept hc))
    · exact hprogress.untouched hc
  · intro c hc heager
    obtain ⟨blk, hblk, hsettled⟩ := hprogress.settled hc
    obtain ⟨args, q, kind, v, m, hadvanced⟩ :=
      hsettled.advanced ((Fragment.isEager_eq hblk).symm.trans heager)
    exact ⟨blk, args, q, kind, v, m, hblk, hadvanced⟩

/-! ### Networks that go on alike -/

/-- The second network stands where the first one does, with some blocks visited.
What the other blocks carry may differ: it is not read before it is put out
anew. -/
structure Abreast (done : List BlockId) (s t : Simulator α) : Prop where
  fragment : t.fragment = s.fragment
  order : t.order = s.order
  around : t.around = s.around
  cycles : t.cycles = s.cycles
  memories : ∀ b, t.memories.get? b = s.memories.get? b
  values : ∀ {b : BlockId} {blk : Block α} {q : PortId}, b ∈ done →
    s.fragment.blocks[b]? = some blk → blk.output = some q → t.value? q = s.value? q

/-- Two steps end with the same error, or with related states. -/
def EndAlike (R : Simulator α → Simulator α → Prop) (x y : Except (SimError α) (Simulator α)) :
    Prop :=
  (∃ e, x = .error e ∧ y = .error e) ∨ ∃ s t, x = .ok s ∧ y = .ok t ∧ R s t

/-- Two sweeps that fail with the same error. -/
def BothFail (act : Simulator α → BlockId → Except (SimError α) (Simulator α))
    (order : List BlockId) (s t : Simulator α) : Prop :=
  ∃ e s' t', sweep act order s = .error e s' ∧ sweep act order t = .error e t'

section Abreast

variable {done order rest : List BlockId} {s t : Simulator α} {b : BlockId} {blk : Block α}

/-- The second sweep comes to a state related to `s'` when the first one comes to
`s'`. -/
def Follows (act : Simulator α → BlockId → Except (SimError α) (Simulator α))
    (R : List BlockId → Simulator α → Simulator α → Prop) (t : Simulator α)
    (done : List BlockId) (s' : Simulator α) : Prop :=
  ∃ t', (∀ rest, sweep act (done ++ rest) t = sweep act rest t') ∧ R done s' t'

omit [Scalar α] in
/-- Sweeps end alike if their steps do. -/
theorem sweep_alike {act : Simulator α → BlockId → Except (SimError α) (Simulator α)}
    {R : List BlockId → Simulator α → Simulator α → Prop}
    (hstep : ∀ {done : List BlockId} {b : BlockId} {rest : List BlockId} {s t : Simulator α},
      order = done ++ b :: rest → R done s t → EndAlike (R (done ++ [b])) (act s b) (act t b))
    (h : R [] s t) :
    BothFail act order s t ∨
      ∃ s' t', sweep act order s = .ok () s' ∧ sweep act order t = .ok () t' ∧ R order s' t' := by
  have hnext : ∀ {done : List BlockId} {b : BlockId} {rest : List BlockId} {s' s'' : Simulator α},
      order = done ++ b :: rest → Follows act R t done s' → act s' b = .ok s'' →
      Follows act R t (done ++ [b]) s'' := by
    rintro done b rest s' s'' hsplit ⟨t', hsweep, hrelated⟩ hact
    rcases hstep hsplit hrelated with ⟨e, herror, -⟩ | ⟨s₁, t₁, hs₁, ht₁, hnext⟩
    · rw [hact] at herror
      cases herror
    · rw [hact] at hs₁
      cases hs₁
      refine ⟨t₁, fun rest => ?_, hnext⟩
      rw [List.append_assoc, hsweep]
      simp only [List.singleton_append, sweep, ht₁]
  have hbegin : Follows act R t [] s := ⟨t, fun _ => rfl, h⟩
  rcases sweep_cases hnext hbegin with ⟨s', hsweep, t', hsweep', hrelated⟩ |
    ⟨done, b, rest, e, s', hsplit, hsweep, ⟨t', hsweep', hrelated⟩, herror⟩
  · refine .inr ⟨s', t', hsweep, ?_, hrelated⟩
    have hall := hsweep' []
    rwa [List.append_nil] at hall
  · rcases hstep hsplit hrelated with ⟨e', hs', ht'⟩ | ⟨_, _, hs', -, -⟩
    · rw [herror] at hs'
      cases hs'
      refine .inl ⟨e, s', t', hsweep, ?_⟩
      rw [hsplit, hsweep']
      simp only [sweep, ht']
    · rw [herror] at hs'
      cases hs'

omit [Scalar α] in
/-- The inputs of a block carry the same once its sources have been visited. -/
theorem Abreast.arguments (h : Abreast done s t) (hf : s.fragment.WellFormed)
    (hsources : ∀ {input source : PortId} {port : Port}, input ∈ blk.inputs →
      s.fragment.producer? input = some source → s.fragment.ports[source]? = some port →
      port.block ∈ done) : t.arguments b blk = s.arguments b blk := by
  unfold Simulator.arguments
  refine mapM_congr fun input hinput => ?_
  unfold argument
  rw [h.fragment]
  cases hproducer : s.fragment.producer? input with
  | none => rfl
  | some source =>
      obtain ⟨port, -, hport, -, hout, -⟩ := hf.wires _ (hf.producer?_eq_some_iff.mp hproducer)
      obtain ⟨owner, howner, -, houtput⟩ := hf.owner hport
      simp only [Option.bind_some, h.values (hsources hinput hproducer hport) howner (houtput hout)]

omit [Scalar α] in
theorem Abreast.put (h : Abreast done s t) (hblk : s.fragment.blocks[b]? = some blk) {q : PortId}
    (hout : blk.output = some q) (v : Value α) : Abreast (done ++ [b]) (s.put q v) (t.put q v) := by
  refine ⟨h.fragment, h.order, h.around, h.cycles, h.memories, ?_⟩
  intro c blk' q' hc hblk' hout'
  by_cases hq : q' = q
  · rw [hq, value?_put_self, value?_put_self]
  · rw [value?_put_of_ne _ _ hq, value?_put_of_ne _ _ hq]
    rcases List.mem_append.mp hc with hold | hnew
    · exact h.values hold hblk' hout'
    · obtain rfl := List.mem_singleton.mp hnew
      rw [show (s.put q v).fragment.blocks[c]? = some blk from hblk] at hblk'
      cases hblk'
      rw [hout] at hout'
      exact absurd (Option.some.inj hout').symm hq

omit [Scalar α] in
theorem Abreast.remember (h : Abreast done s t) (b : BlockId) (m : Option (Memory α)) :
    Abreast done (s.remember b m) (t.remember b m) := by
  refine ⟨?_, ?_, ?_, ?_, ?_, ?_⟩
  · simpa using h.fragment
  · simpa using h.order
  · simpa using h.around
  · simpa using h.cycles
  · intro c
    by_cases hc : c = b
    · rw [hc, memories_remember_self, memories_remember_self, h.memories]
    · rw [memories_remember_of_ne _ _ hc, memories_remember_of_ne _ _ hc, h.memories]
  · intro c blk q hc hblk hout
    rw [remember_fragment] at hblk
    rw [value?_remember, value?_remember]
    exact h.values hc hblk hout

/-- Reactions end alike. -/
theorem Abreast.reactAt (h : Abreast done s t) (hf : s.fragment.WellFormed)
    (hschedule : s.fragment.Schedules s.order) (hsplit : s.order = done ++ b :: rest)
    (hblk : s.fragment.blocks[b]? = some blk) (hdelay : blk.primitive.isDelay = false) :
    EndAlike (Abreast (done ++ [b])) (s.reactAt b blk) (t.reactAt b blk) := by
  have harguments : t.arguments b blk = s.arguments b blk := h.arguments hf
    fun hinput hproducer hport => hschedule.fed hsplit hblk hdelay hinput hproducer hport
  unfold Simulator.reactAt
  rw [harguments, h.fragment, h.around, h.memories b]
  cases s.arguments b blk with
  | error e => exact .inl ⟨e, rfl, rfl⟩
  | ok args =>
      cases hout : blk.output with
      | none => exact .inl ⟨_, rfl, rfl⟩
      | some q =>
          dsimp only
          cases s.fragment.kindOf q with
          | error e => exact .inl ⟨_, rfl, rfl⟩
          | ok kind =>
              dsimp only
              cases blk.primitive.react s.around kind (s.memories.get? b) args with
              | error fault => cases fault <;> exact .inl ⟨_, rfl, rfl⟩
              | ok result =>
                  refine .inr ⟨_, _, rfl, rfl, ?_⟩
                  exact (h.remember b result.2).put (by simpa using hblk) hout result.1

/-- **The step of the first half, in two networks.** -/
theorem Abreast.evaluate (h : Abreast done s t) (hf : s.fragment.WellFormed)
    (hschedule : s.fragment.Schedules s.order) (hsplit : s.order = done ++ b :: rest) :
    EndAlike (Abreast (done ++ [b])) (s.evaluate b) (t.evaluate b) := by
  have hblock : t.blockAt b = s.blockAt b := by
    unfold blockAt
    rw [h.fragment]
  unfold Simulator.evaluate
  rw [hblock]
  cases hblk : s.blockAt b with
  | error e => exact .inl ⟨e, rfl, rfl⟩
  | ok blk =>
      have hblk := blockAt_eq_ok.mp hblk
      dsimp only
      cases hprimitive : blk.primitive with
      | pre initial =>
          cases hout : blk.output with
          | none => exact .inl ⟨_, rfl, rfl⟩
          | some q =>
              have hdelayed : t.delayed b initial = s.delayed b initial := by
                rw [delayed, delayed, h.memories]
              refine .inr ⟨_, _, rfl, rfl, ?_⟩
              rw [hdelayed]
              exact h.put hblk hout _
      | store slot =>
          refine .inr ⟨s, t, rfl, rfl, { h with values := ?_ }⟩
          intro c blk' q hc hblk' hout
          rcases List.mem_append.mp hc with hold | hnew
          · exact h.values hold hblk' hout
          · obtain rfl := List.mem_singleton.mp hnew
            rw [hblk] at hblk'
            cases hblk'
            have hsink := hf.sink hblk
            rw [hprimitive, hout] at hsink
            cases hsink
      | _ =>
          exact h.reactAt hf hschedule hsplit hblk (by rw [hprimitive]; rfl)

omit [Scalar α] in
/-- **The step of the second half, in two networks.** -/
theorem Abreast.conclude (h : Abreast s.order s t) (hf : s.fragment.WellFormed)
    (hschedule : s.fragment.Schedules s.order) :
    EndAlike (Abreast s.order) (s.conclude b) (t.conclude b) := by
  have hblock : t.blockAt b = s.blockAt b := by
    unfold blockAt
    rw [h.fragment]
  have harguments : ∀ blk : Block α, t.arguments b blk = s.arguments b blk := fun blk =>
    h.arguments hf fun _ _ hport => by
      obtain ⟨owner, howner, -⟩ := hf.owner hport
      exact (hschedule.complete _).mpr (List.getElem?_eq_some_iff.mp howner).1
  unfold Simulator.conclude
  rw [hblock]
  cases s.blockAt b with
  | error e => exact .inl ⟨e, rfl, rfl⟩
  | ok blk =>
      dsimp only
      rw [harguments]
      cases blk.primitive with
      | pre initial =>
          cases s.arguments b blk with
          | error e => exact .inl ⟨e, rfl, rfl⟩
          | ok args => exact .inr ⟨_, _, rfl, rfl, h.remember b _⟩
      | store slot =>
          cases s.arguments b blk with
          | error e => exact .inl ⟨e, rfl, rfl⟩
          | ok args =>
              cases args with
              | nil => exact .inr ⟨s, t, rfl, rfl, h⟩
              | cons v _ =>
                  exact .inr ⟨_, _, rfl, rfl, { h with around := by simp only [setSlot, h.around] }⟩
      | _ => exact .inr ⟨s, t, rfl, rfl, h⟩

omit [Scalar α] in
theorem conclude_frame {s' : Simulator α} (h : s.conclude b = .ok s') :
    s'.fragment = s.fragment ∧ s'.order = s.order := by
  obtain ⟨blk, -, hcases⟩ := conclude_eq_ok h
  rcases hcases with ⟨_, _, -, -, rfl⟩ | ⟨_, _, -, -, ⟨v, -, rfl⟩ | ⟨-, rfl⟩⟩ | ⟨-, -, rfl⟩
  · exact ⟨remember_fragment _ _ _, remember_order _ _ _⟩
  all_goals exact ⟨rfl, rfl⟩

/-- The first half of a cycle of two networks that go on alike. -/
theorem Abreast.firstHalf (h : Abreast [] s t) (hs : Ready s) :
    BothFail Simulator.evaluate s.order s t ∨ ∃ s' t',
      sweep Simulator.evaluate s.order s = .ok () s' ∧
      sweep Simulator.evaluate s.order t = .ok () t' ∧
      Ready s' ∧ s'.order = s.order ∧ Abreast s.order s' t' := by
  refine sweep_alike (R := fun done s' t' => Ready s' ∧ s'.order = s.order ∧ Abreast done s' t')
    ?_ ⟨hs, rfl, h⟩
  rintro done b rest s' t' hsplit ⟨hready, horder, habreast⟩
  rcases habreast.evaluate hready.wellFormed hready.schedule (horder.trans hsplit) with
    herror | ⟨s'', t'', hs'', ht'', hnext⟩
  · exact .inl herror
  · obtain ⟨hfragment', horder', -⟩ := evaluate_frame hready.wellFormed hs''
    exact .inr ⟨s'', t'', hs'', ht'', hready.congr hfragment' horder', horder'.trans horder, hnext⟩

omit [Scalar α] in
/-- The second half of a cycle of two networks that go on alike. -/
theorem Abreast.secondHalf (h : Abreast s.order s t) (hs : Ready s) :
    BothFail Simulator.conclude s.order s t ∨ ∃ s' t',
      sweep Simulator.conclude s.order s = .ok () s' ∧
      sweep Simulator.conclude s.order t = .ok () t' ∧
      Ready s' ∧ s'.order = s.order ∧ Abreast s.order s' t' := by
  refine sweep_alike (R := fun _ s' t' => Ready s' ∧ s'.order = s.order ∧ Abreast s.order s' t')
    ?_ ⟨hs, rfl, h⟩
  rintro done b rest s' t' - ⟨hready, horder, habreast⟩
  rw [← horder] at habreast
  rcases habreast.conclude (b := b) hready.wellFormed hready.schedule with
    herror | ⟨s'', t'', hs'', ht'', hnext⟩
  · exact .inl herror
  · obtain ⟨hfragment', horder'⟩ := conclude_frame hs''
    rw [horder] at hnext
    exact .inr ⟨s'', t'', hs'', ht'', hready.congr hfragment' horder', horder'.trans horder, hnext⟩

/-- **One cycle of two networks that go on alike.** -/
theorem Abreast.step (h : Abreast [] s t) (hs : Ready s) :
    (∃ e s' t', Simulator.step s = .error e s' ∧ Simulator.step t = .error e t') ∨
      ∃ s' t', Simulator.step s = .ok () s' ∧ Simulator.step t = .ok () t' ∧
        Abreast [] s' t' := by
  rw [step_apply, step_apply, h.order]
  rcases h.firstHalf hs with ⟨e, s', t', hs', ht'⟩ | ⟨s₁, t₁, hs₁, ht₁, hready, horder, habreast⟩
  · exact .inl ⟨e, s', t', by simp only [hs'], by simp only [ht']⟩
  · simp only [hs₁, ht₁]
    rw [← horder] at habreast ⊢
    rcases habreast.secondHalf hready with
      ⟨e, s', t', hs', ht'⟩ | ⟨s₂, t₂, hs₂, ht₂, -, -, habreast₂⟩
    · exact .inl ⟨e, s', t', by simp only [hs'], by simp only [ht']⟩
    · refine .inr ⟨tick s₂, tick t₂, by simp only [hs₂], by simp only [ht₂],
        habreast₂.fragment, habreast₂.order, ?_, ?_, habreast₂.memories, fun hb => by cases hb⟩
      · simp only [tick, habreast₂.around]
      · simp only [tick, habreast₂.cycles]

end Abreast

/-! ### Runs with failed cycles -/

/-- A cycle that fails does so before it has evaluated an eager block. -/
def FailsEarly (s : Simulator α) : Prop :=
  ∀ e s', step s = .error e s' → ∀ b ∈ s.evaluated, s.fragment.isEager b = false

/-- A call that runs a cycle. -/
def Call.isStep : Call α → Bool
  | .step => true
  | _ => false

/-- Only cycles fail. -/
theorem Call.eq_step {call : Call α} {s s' : Simulator α} {e : SimError α}
    (h : call.run s = .error e s') : call = .step := by
  cases call with
  | step => rfl
  | _ => cases h

/-- The calls without the cycles that fail. -/
def completed : List (Call α) → Simulator α → List (Call α)
  | [], _ => []
  | call :: rest, s =>
    match call.run s with
    | .error _ s' => completed rest s'
    | .ok _ s' => call :: completed rest s'

section Runs

variable {s s' t : Simulator α}

/-- A cycle that fails early is as good as none. -/
theorem Abreast.stopped (h : Abreast [] s t) (hstopped : Stopped s s')
    (hearly : ∀ b ∈ s.evaluated, s.fragment.isEager b = false) : Abreast [] s' t := by
  refine ⟨?_, ?_, ?_, ?_, fun b => ?_, fun hb => by cases hb⟩
  · rw [h.fragment, hstopped.fragment]
  · rw [h.order, hstopped.order]
  · rw [h.around, hstopped.around]
  · rw [h.cycles, hstopped.cycles]
  · rw [h.memories, hstopped.kept fun hb => hearly b hb]

/-- **One call on two networks that go on alike.** -/
theorem Abreast.call (h : Abreast [] s t) (hs : Ready s) (call : Call α) {u : Unit}
    (hrun : call.run s = .ok u s') : ∃ t', call.run t = .ok () t' ∧ Abreast [] s' t' := by
  cases call with
  | setInput name v =>
      cases hrun
      exact ⟨_, rfl, { h with around := by simp only [setInput, h.around] }⟩
  | setSensor name v =>
      cases hrun
      exact ⟨_, rfl, { h with around := by simp only [setSensor, h.around] }⟩
  | setSlot slot v =>
      cases hrun
      exact ⟨_, rfl, { h with around := by simp only [setSlot, h.around] }⟩
  | step =>
      rw [Call.run] at hrun
      rcases h.step hs with ⟨e, s'', t'', hs'', -⟩ | ⟨s'', t'', hs'', ht'', hnext⟩
      · rw [hrun] at hs''
        cases hs''
      · rw [hrun] at hs''
        cases hs''
        exact ⟨t'', ht'', hnext⟩

/-- **A run whose cycles fail early goes on like the run without them**, in which
all cycles are completed. -/
theorem Abreast.performAll (h : Abreast [] s t) (hs : Ready s) (calls : List (Call α))
    (hearly : ∀ before after, calls = before ++ .step :: after →
      FailsEarly (Simulator.performAll before s)) :
    completed (completed calls s) t = completed calls s ∧
      Abreast [] (Simulator.performAll calls s)
        (Simulator.performAll (completed calls s) t) := by
  induction calls generalizing s t with
  | nil => exact ⟨rfl, h⟩
  | cons call rest ih =>
      have hready : Ready (finalState (call.run s)) := hs.performAll [call]
      have hrest : ∀ before after, rest = before ++ .step :: after →
          FailsEarly (Simulator.performAll before (finalState (call.run s))) :=
        fun before after hsplit => hearly (call :: before) after (congrArg (call :: ·) hsplit)
      have hperform : Simulator.performAll (call :: rest) s =
          Simulator.performAll rest (finalState (call.run s)) := rfl
      rw [hperform, completed]
      cases hrun : call.run s with
      | error e s' =>
          rw [hrun] at hready hrest
          obtain rfl := Call.eq_step hrun
          have hstopped := (hs.stopped hrun).2
          exact ih (h.stopped hstopped (hearly [] rest rfl e s' hrun)) hready hrest
      | ok u s' =>
          rw [hrun] at hready hrest
          obtain ⟨t', ht', hnext⟩ := h.call hs call hrun
          obtain ⟨hcompleted, habreast⟩ := ih hnext hready hrest
          refine ⟨?_, ?_⟩
          · rw [completed, ht']
            exact congrArg (call :: ·) hcompleted
          · show Abreast [] _ (Simulator.performAll _ (finalState (call.run t)))
            rw [ht']
            exact habreast

/-- A network counts the cycles that are completed. -/
theorem Ready.cycles_performAll (hs : Ready s) (calls : List (Call α)) :
    (Simulator.performAll calls s).cycles =
      s.cycles + (completed calls s).countP Call.isStep := by
  induction calls generalizing s with
  | nil => rfl
  | cons call rest ih =>
      have hready : Ready (finalState (call.run s)) := hs.performAll [call]
      have hrest := ih hready
      have hperform : Simulator.performAll (call :: rest) s =
          Simulator.performAll rest (finalState (call.run s)) := rfl
      rw [hperform, hrest, completed]
      cases hrun : call.run s with
      | error e s' =>
          obtain rfl := Call.eq_step hrun
          rw [finalState_error, (hs.stopped hrun).2.cycles]
      | ok u s' =>
          cases call with
          | step =>
              have hcycle := step_eq_ok hs.wellFormed hs.schedule hrun
              rw [finalState_ok, hcycle.cycles, List.countP_cons_of_pos rfl]
              omega
          | _ =>
              cases hrun
              rw [List.countP_cons_of_neg (by simp [Call.isStep])]
              rfl

end Runs

/-- **Failed cycles do not count.**  In a network that has been started, and
whatever calls have been made since, a cycle that fails leaves clock, slots,
counter and delays as they were; of the memories it changes those of the eager
blocks that it has evaluated, and no others.  Only completed cycles are counted.
If no cycle fails behind an eager block, the network goes on as if the failed
cycles had not been run: the memories of all blocks have advanced once for each
counted cycle. -/
theorem failed_cycles_keep {f : Fragment α} (hf : f.Reachable) {period : α} {s₀ : Simulator α}
    (hstart : start f period = .ok s₀) (calls : List (Call α)) :
    (∀ e s', step (performAll calls s₀) = .error e s' →
      (∃ b rest, (performAll calls s₀).order = (performAll calls s₀).evaluated ++ b :: rest ∧
        s'.evaluate b = .error e) ∧ Stopped (performAll calls s₀) s') ∧
    (performAll calls s₀).cycles = (completed calls s₀).countP Call.isStep ∧
    ((∀ before after, calls = before ++ .step :: after → FailsEarly (performAll before s₀)) →
      completed (completed calls s₀) s₀ = completed calls s₀ ∧
        Abreast [] (performAll calls s₀) (performAll (completed calls s₀) s₀)) := by
  have hready : Ready s₀ := start_ready hf.wellFormed hstart
  refine ⟨fun e s' => (hready.performAll calls).stopped, ?_, fun hearly => ?_⟩
  · have hbegin : s₀.cycles = 0 := by
      rw [(start_eq_ok hstart).2.2]
    rw [hready.cycles_performAll calls, hbegin, Nat.zero_add]
  · have hsame : Abreast [] s₀ s₀ := ⟨rfl, rfl, rfl, rfl, fun _ => rfl, fun _ _ _ => rfl⟩
    exact hsame.performAll hready calls hearly

/-- A quotient in front of an edge detector. -/
def Sample.ratio : Fragment Float :=
  Fragment.performAll [.addSource (.input "n") .integer, .addWired (.binary .div) [0, 0] .integer,
    .addWired (.compare .equal) [3, 0] .boolean, .addWired (.edge true) [6] .boolean] .empty

/-- The network of that fragment before its first cycle. -/
def Sample.begun : Simulator Float :=
  { fragment := Sample.ratio, order := [0, 1, 2, 3], around := { period := 1, time := 0 } }

/-- The second of the three cycles divides by zero. -/
def Sample.attempts : List (Call Float) :=
  [.setInput "n" (.integer 1), .step, .setInput "n" (.integer 0), .step,
    .setInput "n" (.integer 1), .step]

/-- The division fails before the edge detector is evaluated, so the last cycle
sees no second edge. -/
theorem ratio_keeps :
    start Sample.ratio 1 = .ok Sample.begun ∧
      (∃ s', step (performAll (Sample.attempts.take 3) Sample.begun) =
          .error (.rejected "div" 1 [.integer 0, .integer 0]) s' ∧
        Stopped (performAll (Sample.attempts.take 3) Sample.begun) s') ∧
      (performAll Sample.attempts Sample.begun).cycles = 2 ∧
      Abreast [] (performAll Sample.attempts Sample.begun)
        (performAll (completed Sample.attempts Sample.begun) Sample.begun) ∧
      (performAll Sample.attempts Sample.begun).value? 8 = some (.boolean false) := by
  have hstart : start Sample.ratio 1 = .ok Sample.begun := by decide +kernel
  obtain ⟨hstopped, -, -⟩ :=
    failed_cycles_keep ⟨_, rfl⟩ hstart (Sample.attempts.take 3)
  obtain ⟨-, hcycles, hcompleted⟩ := failed_cycles_keep ⟨_, rfl⟩ hstart Sample.attempts
  -- In front of each call, a cycle is completed or stops before the edge detector.
  have hcheck : ∀ n < Sample.attempts.length,
      (match step (performAll (Sample.attempts.take n) Sample.begun) with
        | .ok _ _ => true
        | .error _ _ =>
          (performAll (Sample.attempts.take n) Sample.begun).evaluated.all fun b =>
            !(performAll (Sample.attempts.take n) Sample.begun).fragment.isEager b) = true := by
    decide +kernel
  refine ⟨hstart, ?_, hcycles.trans (by decide +kernel), (hcompleted ?_).2, by decide +kernel⟩
  · have hfails : (match step (performAll (Sample.attempts.take 3) Sample.begun) with
        | .ok _ _ => none
        | .error e _ => some e) = some (.rejected "div" 1 [.integer 0, .integer 0]) := by
      decide +kernel
    cases hstep : step (performAll (Sample.attempts.take 3) Sample.begun) with
    | ok u s' => simp [hstep] at hfails
    | error e s' =>
        simp only [hstep, Option.some.injEq] at hfails
        exact ⟨s', by rw [hfails], (hstopped e s' hstep).2⟩
  · intro before after hsplit e s' hstep b hb
    have htake : Sample.attempts.take before.length = before := by
      rw [hsplit, List.take_left]
    have hlength : before.length < Sample.attempts.length := by
      rw [hsplit, List.length_append, List.length_cons]
      omega
    have hall := hcheck before.length hlength
    simp only [htake, hstep, List.all_eq_true, Bool.not_eq_true'] at hall
    exact hall b hb

/-- An edge detector, and a quotient that is evaluated after it. -/
def Sample.watched : Fragment Float :=
  Fragment.performAll [.addSource (.input "x") .boolean, .addWired (.edge true) [0] .boolean,
    .expose "e" 2, .addSource (.input "n") .integer,
    .addWired (.binary .div) [3, 3] .integer] .empty

/-- The network of that fragment with its input set to true. -/
def Sample.pressed : Simulator Float :=
  { fragment := Sample.watched, order := [0, 1, 2, 3],
    around := { period := 1, time := 0, inputs := Table.empty.insert "x" (.boolean true) } }

/-- The division by zero fails when the edge has been seen already.  The cycle is
not counted, but the edge is gone: the next cycle is completed and does not show
it, as it would if the failed one had not been run. -/
theorem failed_cycle_swallows_edge :
    (start Sample.watched 1).map (·.setInput "x" (.boolean true)) = .ok Sample.pressed ∧
      (match step Sample.pressed with
        | .ok _ _ => none
        | .error e s' => some (e, s'.cycles, s'.memories.get? 1)) =
          some (.rejected "div" 3 [.integer 0, .integer 0], 0, some (.edge true)) ∧
      Sample.pressed.memories.get? 1 = none ∧
      (performAll [.step, .setInput "n" (.integer 1), .step] Sample.pressed).output? "e" =
        some (.boolean false) ∧
      (performAll [.setInput "n" (.integer 1), .step] Sample.pressed).output? "e" =
        some (.boolean true) := by
  decide +kernel

end Simulator

end SignalNet
