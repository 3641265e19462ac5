import SignalNet.Proofs.Net.Run

/-!
# Look-ups and slots

Two simulators are compared through what can be looked up in them, because the
order in which tables were filled cannot be seen (`Surroundings.Same`).
Reactions and stimuli depend on look-ups only (`Surroundings.Same.react`,
`Surroundings.Same.feed`).

A cycle changes the surroundings in two ways: the clock goes on, and slots are
filled.  A slot that several sinks fill keeps what the last one visited is fed
(`Simulator.LastFill`), and `Simulator.step_lastFill` says so of every slot.

Two cycles are compared block by block: what is fed the same remembers the same
(`Simulator.Cycled.memory_congr`), and slots that the same sink fills last keep
the same (`Simulator.LastFill.congr`).
-/

namespace SignalNet

open Computing

variable {α : Type}

/-! ### Tables with the same entries -/

namespace Table

variable {κ ν : Type} [DecidableEq κ]

theorem get?_insert_congr {t t' : Table κ ν} (h : ∀ k, t.get? k = t'.get? k) (k : κ) (v : ν)
    (k' : κ) : (t.insert k v).get? k' = (t'.insert k v).get? k' := by
  by_cases hk : k' = k
  · rw [hk, get?_insert_self, get?_insert_self]
  · rw [get?_insert_of_ne _ _ hk, get?_insert_of_ne _ _ hk, h]

/-- The same entries put into tables with the same answers. -/
theorem get?_foldl_insert_congr {t t' : Table κ ν} (h : ∀ k, t.get? k = t'.get? k)
    (entries : List (κ × ν)) (k : κ) :
    (entries.foldl (fun t (k, v) => t.insert k v) t).get? k =
      (entries.foldl (fun t (k, v) => t.insert k v) t').get? k := by
  induction entries generalizing t t' with
  | nil => exact h k
  | cons entry rest ih => exact ih (get?_insert_congr h entry.1 entry.2)

end Table

/-- Surroundings in which all look-ups have the same answers. -/
structure Surroundings.Same (a a' : Surroundings α) : Prop where
  period : a.period = a'.period
  time : a.time = a'.time
  inputs : ∀ name, a.inputs.get? name = a'.inputs.get? name
  sensors : ∀ name, a.sensors.get? name = a'.sensors.get? name
  slots : ∀ slot, a.slots.get? slot = a'.slots.get? slot

namespace Surroundings.Same

variable {a a' : Surroundings α}

theorem refl (a : Surroundings α) : a.Same a :=
  ⟨rfl, rfl, fun _ => rfl, fun _ => rfl, fun _ => rfl⟩

theorem symm (h : a.Same a') : a'.Same a :=
  ⟨h.period.symm, h.time.symm, fun name => (h.inputs name).symm,
    fun name => (h.sensors name).symm, fun slot => (h.slots slot).symm⟩

theorem feed (h : a.Same a') (x : Stimulus α) : (a.feed x).Same (a'.feed x) :=
  ⟨h.period, h.time, Table.get?_foldl_insert_congr h.inputs x.inputs,
    Table.get?_foldl_insert_congr h.sensors x.sensors,
    Table.get?_foldl_insert_congr h.slots x.slots⟩

variable [Scalar α]

/-- A reaction sees its surroundings through look-ups. -/
theorem react (h : a.Same a') (primitive : Primitive α) (kind : Kind)
    (memory : Option (Memory α)) (args : List (Value α)) :
    primitive.react a kind memory args = primitive.react a' kind memory args := by
  unfold Primitive.react
  simp only [h.period, h.time, h.inputs, h.sensors, h.slots]

end Surroundings.Same

/-! ### The last sink that fills a slot -/

namespace Fragment

/-- A block keeps its input in a slot. -/
def Writes (f : Fragment α) (b : BlockId) (slot : Nat) : Prop :=
  ∃ blk, f.blocks[b]? = some blk ∧ blk.primitive = .store slot

/-- A block that fills a slot is there. -/
theorem Writes.block_lt {f : Fragment α} {b : BlockId} {slot : Nat} (h : f.Writes b slot) :
    b < f.blocks.length := by
  obtain ⟨blk, hblk, -⟩ := h
  exact (List.getElem?_eq_some_iff.mp hblk).1

/-- The same as a test. -/
def storesTo (f : Fragment α) (slot : Nat) (b : BlockId) : Bool :=
  match f.blocks[b]? with
  | some ⟨.store k, _, _⟩ => k == slot
  | _ => false

theorem storesTo_iff {f : Fragment α} {slot : Nat} {b : BlockId} :
    f.storesTo slot b = true ↔ f.Writes b slot := by
  unfold storesTo Writes
  cases hblk : f.blocks[b]? with
  | none => simp
  | some blk =>
      obtain ⟨primitive, inputs, output⟩ := blk
      cases primitive <;> simp

end Fragment

namespace Simulator

/-- What a slot keeps at the end of a cycle that began as `s`, with some
blocks visited: what the last of them that fills it is fed, or what it kept
before. -/
inductive LastFill (s : Simulator α) (carried : PortId → Option (Value α)) (done : List BlockId)
    (slot : Nat) (kept : Option (Value α)) : Prop
  | before (hnone : done.filter (s.fragment.storesTo slot) = []) (hkept : kept = s.slot? slot)
  | filled {b : BlockId} {blk : Block α} {v : Value α}
      (hlast : (done.filter (s.fragment.storesTo slot)).getLast? = some b)
      (hblk : s.fragment.blocks[b]? = some blk)
      (hv : Carries s.fragment carried blk.inputs [v]) (hkept : kept = some v)

variable {s s₁ s₂ : Simulator α} {carried : PortId → Option (Value α)} {done : List BlockId}
  {b : BlockId} {slot : Nat} {kept : Option (Value α)}

/-- A block that does not fill the slot. -/
theorem LastFill.pass (h : LastFill s carried done slot kept)
    (hb : s.fragment.storesTo slot b = false) : LastFill s carried (done ++ [b]) slot kept := by
  have hsame : (done ++ [b]).filter (s.fragment.storesTo slot) =
      done.filter (s.fragment.storesTo slot) := by
    simp [List.filter_append, hb]
  cases h with
  | before hnone hkept => exact .before (hsame.trans hnone) hkept
  | filled hlast hblk hv hkept => exact .filled (by rw [hsame]; exact hlast) hblk hv hkept

/-- A block that fills the slot is the last one that does. -/
theorem LastFill.fill {blk : Block α} {v : Value α} (hblk : s.fragment.blocks[b]? = some blk)
    (hprimitive : blk.primitive = .store slot) (hv : Carries s.fragment carried blk.inputs [v]) :
    LastFill s carried (done ++ [b]) slot (some v) := by
  have hb : s.fragment.storesTo slot b = true :=
    Fragment.storesTo_iff.mpr ⟨blk, hblk, hprimitive⟩
  refine .filled (b := b) ?_ hblk hv rfl
  simp [List.filter_append, hb]

theorem slot?_remember (s : Simulator α) (b : BlockId) (m : Option (Memory α)) :
    (s.remember b m).slot? = s.slot? := by
  funext slot
  unfold slot?
  rw [remember_around]

/-- What is known of all slots in the second half of a cycle. -/
structure Shelved (s : Simulator α) (carried : PortId → Option (Value α)) (done : List BlockId)
    (s' : Simulator α) : Prop where
  fragment : s'.fragment = s.fragment
  values : s'.value? = carried
  last : ∀ slot, LastFill s carried done slot (s'.slot? slot)

/-- **The step of the second half of a cycle, for shared slots.** -/
theorem Shelved.conclude (hf : s.fragment.WellFormed) (h : Shelved s carried done s₁)
    (hconclude : s₁.conclude b = .ok s₂) : Shelved s carried (done ++ [b]) s₂ := by
  obtain ⟨blk, hblk, hcases⟩ := conclude_eq_ok hconclude
  rw [h.fragment] at hblk
  have hother : ∀ {slot : Nat}, blk.primitive ≠ .store slot →
      s.fragment.storesTo slot b = false := by
    intro slot hne
    rw [Bool.eq_false_iff, ne_eq, Fragment.storesTo_iff]
    rintro ⟨blk', hblk', hprimitive⟩
    rw [hblk] at hblk'
    cases hblk'
    exact hne hprimitive
  rcases hcases with ⟨initial, args, hprimitive, -, rfl⟩ |
    ⟨slot, args, hprimitive, hargs, hslot⟩ | ⟨-, hsink, rfl⟩
  · refine ⟨(remember_fragment s₁ b _).trans h.fragment, ?_, fun slot => ?_⟩
    · rw [← h.values]
      funext q
      exact value?_remember s₁ b _ q
    · rw [slot?_remember]
      exact (h.last slot).pass (hother (by rw [hprimitive]; nofun))
  · rw [h.fragment, h.values] at hargs
    obtain ⟨v, rfl⟩ := hargs.single (hf.arity hblk 1 (by rw [hprimitive]; rfl))
    rcases hslot with ⟨w, hhead, rfl⟩ | ⟨hhead, -⟩
    · obtain rfl : v = w := by simpa using hhead
      refine ⟨h.fragment, h.values, fun other => ?_⟩
      by_cases hsame : other = slot
      · subst hsame
        have hself : (s₁.setSlot other v).slot? other = some v := Table.get?_insert_self _ _ _
        rw [hself]
        exact .fill hblk hprimitive hargs
      · have hkept : (s₁.setSlot slot v).slot? other = s₁.slot? other :=
          Table.get?_insert_of_ne _ _ hsame
        rw [hkept]
        refine (h.last other).pass (hother ?_)
        rw [hprimitive]
        intro heq
        cases heq
        exact hsame rfl
    · simp at hhead
  · refine ⟨h.fragment, h.values, fun slot => (h.last slot).pass (hother ?_)⟩
    intro hstore
    rw [hstore] at hsink
    cases hsink

variable [Scalar α]

/-- **Slots after a completed cycle**, however many sinks fill them. -/
theorem step_lastFill {s' : Simulator α} (hf : s.fragment.WellFormed)
    (hschedule : s.fragment.Schedules s.order) {u : Unit} (h : step s = .ok u s') (slot : Nat) :
    LastFill s s'.value? s.order slot (s'.slot? slot) := by
  rw [step_apply] at h
  rcases evaluate_sweep hf hschedule with ⟨s₁, hsweep, hprogress⟩ |
    ⟨done, b, rest, e, s₁, -, hsweep, -⟩
  · simp only [hsweep] at h
    have hbegin : Shelved s s₁.value? [] s₁ := by
      refine ⟨hprogress.fragment, rfl, fun slot => .before rfl ?_⟩
      unfold slot?
      rw [hprogress.around]
    have hends := sweep_cases (I := Shelved s s₁.value?)
      (fun (_ : s.order = _) hdone hact => hdone.conclude hf hact) hbegin
    rcases hends with ⟨s₂, hsweep₂, hshelved⟩ | ⟨done, b, rest, e, s₂, -, hsweep₂, -⟩
    · simp only [hsweep₂] at h
      cases h
      have hvalue : (tick s₂).value? = s₁.value? := hshelved.values
      rw [hvalue]
      exact hshelved.last slot
    · simp only [hsweep₂] at h
      cases h
  · simp only [hsweep] at h
    cases h

/-! ### Two cycles side by side -/

section Two

variable {s' t t' : Simulator α} {blk : Block α}

/-- Cycles in surroundings that look the same leave such surroundings, if slots
keep the same. -/
theorem Cycle.same (h : Cycle s s') (h' : Cycle t t') (hsame : s.around.Same t.around)
    (hslots : ∀ slot, s'.slot? slot = t'.slot? slot) : s'.around.Same t'.around := by
  refine ⟨?_, ?_, ?_, ?_, hslots⟩
  · rw [h.period, h'.period, hsame.period]
  · rw [h.time, h'.time, hsame.time, hsame.period]
  · rw [h.inputs, h'.inputs]
    exact hsame.inputs
  · rw [h.sensors, h'.sensors]
    exact hsame.sensors

/-- A block that is fed the same in both cycles remembers the same. -/
theorem Cycled.memory_congr (h : Cycled s s' b blk) (h' : Cycled t t' b blk)
    (hsame : s.around.Same t.around) (hmemory : s.memories.get? b = t.memories.get? b)
    (hkind : ∀ q, blk.output = some q → s.fragment.kindOf q = t.fragment.kindOf q)
    (hfed : ∀ {args args' : List (Value α)}, Carries s.fragment s'.value? blk.inputs args →
      Carries t.fragment t'.value? blk.inputs args' → args = args') :
    s'.memories.get? b = t'.memories.get? b := by
  cases h with
  | delay hprimitive _ _ hargs hkept =>
      cases h' with
      | delay _ _ _ hargs' hkept' =>
          cases hfed hargs hargs'
          rw [hkept, hkept']
      | sink hprimitive' _ =>
          rw [hprimitive] at hprimitive'
          cases hprimitive'
      | reaction hdelay =>
          rw [hprimitive] at hdelay
          cases hdelay
  | sink hprimitive hkept =>
      cases h' with
      | delay hprimitive' _ _ _ _ =>
          rw [hprimitive] at hprimitive'
          cases hprimitive'
      | sink _ hkept' => rw [hkept, hkept', hmemory]
      | reaction _ hsink =>
          rw [hprimitive] at hsink
          cases hsink
  | reaction hdelay hsink hargs hout hk hreact _ hkept =>
      cases h' with
      | delay hprimitive _ _ _ _ =>
          rw [hprimitive] at hdelay
          cases hdelay
      | sink hprimitive _ =>
          rw [hprimitive] at hsink
          cases hsink
      | reaction _ _ hargs' hout' hk' hreact' _ hkept' =>
          rw [hout] at hout'
          cases hout'
          rw [hkind _ hout, hk'] at hk
          cases hk
          cases hfed hargs hargs'
          rw [hsame.react, hmemory, hreact'] at hreact
          cases hreact
          rw [hkept, hkept', hmemory]

omit [Scalar α] in
/-- A slot that the same sink fills last keeps the same, if that sink is fed the
same. -/
theorem LastFill.congr {carried' : PortId → Option (Value α)} {done' : List BlockId}
    {kept' : Option (Value α)} (h : LastFill s carried done slot kept)
    (h' : LastFill t carried' done' slot kept')
    (hlast : (done.filter (s.fragment.storesTo slot)).getLast? =
      (done'.filter (t.fragment.storesTo slot)).getLast?)
    (hbefore : s.slot? slot = t.slot? slot)
    (hfed : ∀ {b : BlockId} {blk blk' : Block α} {v v' : Value α}, s.fragment.Writes b slot →
      s.fragment.blocks[b]? = some blk → t.fragment.blocks[b]? = some blk' →
      Carries s.fragment carried blk.inputs [v] → Carries t.fragment carried' blk'.inputs [v'] →
      v = v') : kept = kept' := by
  cases h with
  | before hnone hkept =>
      cases h' with
      | before _ hkept' => rw [hkept, hkept', hbefore]
      | filled hlast' _ _ _ =>
          rw [hnone, hlast'] at hlast
          cases hlast
  | filled hfirst hblk hv hkept =>
      cases h' with
      | before hnone' _ =>
          rw [hnone', hfirst] at hlast
          cases hlast
      | filled hlast' hblk' hv' hkept' =>
          rw [hfirst, hlast'] at hlast
          cases hlast
          have hwrites : s.fragment.storesTo slot _ = true :=
            (List.mem_filter.mp (List.mem_of_getLast? hfirst)).2
          cases hfed (Fragment.storesTo_iff.mp hwrites) hblk hblk' hv hv'
          rw [hkept, hkept']

end Two

end Simulator

end SignalNet
