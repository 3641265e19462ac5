import SignalNet.Proofs.Net.Run
import SignalNet.Proofs.Operator

/-!
# Typed networks

A primitive *accepts* the kinds of its inputs and the kind of its output
(`Primitive.Accepts`), and a fragment is *typed* if each of its blocks accepts
the kinds of its ports (`Fragment.Typed`).

`Primitive.react_typed` says what that is good for: a block that accepts the
kinds of its arguments reacts to them with a value of the kind of its output.
There is one exception, integers that have no quotient.
-/

namespace SignalNet

open Computing

variable {α : Type} [Scalar α]

/-! ### Primitives -/

/-- The kinds of the inputs and of the output that a primitive works with.
Sinks have no output, and custom blocks have no reaction. -/
def Primitive.Accepts : Primitive α → List Kind → Kind → Prop
  | .constant v, kinds, kind => kinds = [] ∧ v.kind = kind
  | .input _, kinds, _ | .sensor _ _, kinds, _ | .load _, kinds, _ => kinds = []
  | .clock _, kinds, kind => kinds = [] ∧ kind = .double
  | .unary op, kinds, kind => ∃ a, kinds = [a] ∧ op.resultKind? a = some kind
  | .binary op, kinds, kind => ∃ a b, kinds = [a, b] ∧ op.resultKind? a b = some kind
  | .compare op, kinds, kind => ∃ a b, kinds = [a, b] ∧ op.resultKind? a b = some kind
  | .select, kinds, kind => kinds = [.boolean, kind, kind]
  | .limit, kinds, kind => kinds = [kind, kind, kind] ∧ kind.isNumeric = true
  | .smooth _, kinds, kind => kinds = [.double] ∧ kind = .double
  | .rateLimit rate, kinds, kind => kinds = [.double] ∧ kind = .double ∧
      Scalar.isFinite rate = true ∧ Scalar.le rate 0 = false
  | .pre initial, kinds, kind => kinds = [kind] ∧ initial.kind = kind
  | .edge _, kinds, kind | .timer _, kinds, kind => kinds = [.boolean] ∧ kind = .boolean
  | .pack, kinds, kind => (∀ a ∈ kinds, a = .double) ∧ kind = .array kinds.length
  | .index position, kinds, kind => ∃ a length, kinds = [a] ∧ a.length? = some length ∧
      position < length ∧ a.element? = some kind
  | .compose c, kinds, kind => kinds = c.parts ∧ kind = c.kind
  | .identity, kinds, kind => kinds = [kind]
  | .latch, kinds, kind => kinds = [.boolean, .boolean] ∧ kind = .boolean
  | .anyOf, kinds, kind | .allOf, kinds, kind => (∀ a ∈ kinds, a = .boolean) ∧ kind = .boolean
  | .store _, _, _ | .custom _ _, _, _ => False

/-- What is set from outside has the kind of the port that reads it. -/
def Surroundings.Fits (around : Surroundings α) (kind : Kind) : Primitive α → Prop
  | .input name => ∀ v, around.inputs.get? name = some v → v.kind = kind
  | .sensor name _ => ∀ v, around.sensors.get? name = some v → v.kind = kind
  | .load slot => ∀ v, around.slots.get? slot = some v → v.kind = kind
  | _ => True

/-- A primitive that reacts is no delay. -/
theorem Primitive.isDelay_of_react {primitive : Primitive α} {around : Surroundings α}
    {kind : Kind} {memory : Option (Memory α)} {args : List (Value α)}
    {result : Value α × Option (Memory α)}
    (h : primitive.react around kind memory args = .ok result) : primitive.isDelay = false := by
  cases primitive with
  | pre initial => cases h
  | _ => rfl

omit [Scalar α] in
/-- Where nothing is set, everything fits. -/
theorem Surroundings.fits_start (period time : α) (kind : Kind) (primitive : Primitive α) :
    ({ period, time } : Surroundings α).Fits kind primitive := by
  cases primitive <;> simp [Fits, Table.get?]

/-- A value that may be missing, with its zero in place. -/
theorem getD_kind {x : Option (Value α)} {kind : Kind} (h : ∀ v, x = some v → v.kind = kind) :
    (x.getD (.zero kind)).kind = kind := by
  cases x with
  | none => exact Value.kind_zero kind
  | some v => exact h v rfl

omit [Scalar α] in
theorem kinds_pair {args : List (Value α)} {a b : Kind} (h : args.map Value.kind = [a, b]) :
    ∃ x y, args = [x, y] ∧ x.kind = a ∧ y.kind = b := by
  obtain ⟨x, _, rfl, hx, hrest⟩ := List.map_eq_cons_iff.mp h
  obtain ⟨y, rfl, hy⟩ := List.map_eq_singleton_iff.mp hrest
  exact ⟨x, y, rfl, hx, hy⟩

omit [Scalar α] in
theorem kinds_triple {args : List (Value α)} {a b c : Kind}
    (h : args.map Value.kind = [a, b, c]) :
    ∃ x y z, args = [x, y, z] ∧ x.kind = a ∧ y.kind = b ∧ z.kind = c := by
  obtain ⟨x, _, rfl, hx, hrest⟩ := List.map_eq_cons_iff.mp h
  obtain ⟨y, z, rfl, hy, hz⟩ := kinds_pair hrest
  exact ⟨x, y, z, rfl, hx, hy, hz⟩

/-- A connective reacts to arguments of boolean kind. -/
theorem Primitive.connective_reacts {primitive : Primitive α} {f : List Bool → Bool}
    (hconnective : primitive.connective? = some f) {args : List (Value α)}
    (hbooleans : ∀ a ∈ args.map Value.kind, a = .boolean) (around : Surroundings α) (kind : Kind)
    (memory : Option (Memory α)) :
    ∃ v m, primitive.react around kind memory args = .ok (v, m) ∧ v.kind = .boolean := by
  obtain ⟨bs, hbs⟩ := exists_booleans fun x hx => hbooleans x.kind (List.mem_map_of_mem hx)
  exact ⟨_, none, (react_connective_eq_ok hconnective).mpr ⟨bs, hbs, rfl, rfl⟩, rfl⟩

/-- A rate limiter with a range to keep to has an output. -/
theorem rateLimited_eq_ok {step : α} (hrange : Scalar.le (-step) step = true) (x : α)
    (memory : Option (Memory α)) : ∃ y, rateLimited step x memory = .ok y := by
  unfold rateLimited
  split
  · rw [if_pos hrange]
    exact ⟨_, rfl⟩
  · exact ⟨_, rfl⟩

/-- **One block.**  A primitive that is no delay reacts to arguments of the
kinds that it accepts with a value of the kind of its output, unless it
divides integers that have no quotient. -/
theorem Primitive.react_typed {around : Surroundings α} {primitive : Primitive α} {kind : Kind}
    {args : List (Value α)} (haccepts : primitive.Accepts (args.map Value.kind) kind)
    (hdelay : primitive.isDelay = false) (hfits : around.Fits kind primitive)
    (hrange : ∀ rate, primitive = .rateLimit rate →
      Scalar.le (-(rate * around.period)) (rate * around.period) = true)
    (memory : Option (Memory α)) :
    (∃ v m, primitive.react around kind memory args = .ok (v, m) ∧ v.kind = kind) ∨
      (primitive = .binary .div ∧ ∃ m n, args = [.integer m, .integer n] ∧ Undivided m n ∧
        primitive.react around kind memory args = .error .rejected) := by
  cases primitive with
  | constant v =>
      obtain ⟨hargs, hkind⟩ := haccepts
      obtain rfl := List.map_eq_nil_iff.mp hargs
      exact Or.inl ⟨v, none, rfl, hkind⟩
  | input name =>
      obtain rfl := List.map_eq_nil_iff.mp haccepts
      exact Or.inl ⟨_, none, rfl, getD_kind hfits⟩
  | sensor name device =>
      obtain rfl := List.map_eq_nil_iff.mp haccepts
      exact Or.inl ⟨_, none, rfl, getD_kind hfits⟩
  | load slot =>
      obtain rfl := List.map_eq_nil_iff.mp haccepts
      exact Or.inl ⟨_, none, rfl, getD_kind hfits⟩
  | clock signal =>
      obtain ⟨hargs, rfl⟩ := haccepts
      obtain rfl := List.map_eq_nil_iff.mp hargs
      cases signal <;> exact Or.inl ⟨_, none, rfl, rfl⟩
  | unary op =>
      obtain ⟨a, hargs, hresult⟩ := haccepts
      obtain ⟨x, rfl, rfl⟩ := List.map_eq_singleton_iff.mp hargs
      rw [← op.eval?_kind] at hresult
      exact Or.inl (operator_reacts (Option.map_eq_some_iff.mp hresult))
  | binary op =>
      obtain ⟨a, b, hargs, hresult⟩ := haccepts
      obtain ⟨x, y, rfl, rfl, rfl⟩ := kinds_pair hargs
      rcases op.eval?_kind x y with heval | ⟨m, n, rfl, rfl, rfl, hundivided, hnone⟩
      · rw [← heval] at hresult
        exact Or.inl (operator_reacts (Option.map_eq_some_iff.mp hresult))
      · exact Or.inr ⟨rfl, m, n, rfl, hundivided, by simp [react, hnone, orRejected, Except.map]⟩
  | compare op =>
      obtain ⟨a, b, hargs, hresult⟩ := haccepts
      obtain ⟨x, y, rfl, rfl, rfl⟩ := kinds_pair hargs
      rw [← op.eval?_kind] at hresult
      exact Or.inl (operator_reacts (Option.map_eq_some_iff.mp hresult))
  | select =>
      obtain ⟨c, t, f, rfl, hc, ht, hf⟩ := kinds_triple haccepts
      exact Or.inl (operator_reacts (Value.select?_kind hc ht hf))
  | limit =>
      obtain ⟨hargs, hnumeric⟩ := haccepts
      obtain ⟨x, lo, hi, rfl, rfl, hlo, hhi⟩ := kinds_triple hargs
      exact Or.inl (operator_reacts (Value.limit?_kind hnumeric hlo hhi))
  | smooth tau =>
      obtain ⟨hargs, rfl⟩ := haccepts
      obtain ⟨x, rfl, hx⟩ := List.map_eq_singleton_iff.mp hargs
      obtain ⟨a, rfl⟩ := Value.asDouble?_of_kind hx
      exact Or.inl ⟨_, _, rfl, rfl⟩
  | rateLimit rate =>
      obtain ⟨hargs, rfl, -, -⟩ := haccepts
      obtain ⟨x, rfl, hx⟩ := List.map_eq_singleton_iff.mp hargs
      obtain ⟨a, rfl⟩ := Value.asDouble?_of_kind hx
      obtain ⟨y, hy⟩ := rateLimited_eq_ok (hrange rate rfl) a memory
      exact Or.inl ⟨.double y, some (.filter y), by simp only [react, hy]; rfl, rfl⟩
  | pre initial => cases hdelay
  | edge rising =>
      obtain ⟨hargs, rfl⟩ := haccepts
      obtain ⟨x, rfl, hx⟩ := List.map_eq_singleton_iff.mp hargs
      obtain ⟨b, rfl⟩ := Value.asBoolean?_of_kind hx
      exact Or.inl ⟨_, _, rfl, rfl⟩
  | timer duration =>
      obtain ⟨hargs, rfl⟩ := haccepts
      obtain ⟨x, rfl, hx⟩ := List.map_eq_singleton_iff.mp hargs
      obtain ⟨b, rfl⟩ := Value.asBoolean?_of_kind hx
      exact Or.inl ⟨_, _, rfl, rfl⟩
  | pack =>
      obtain ⟨hdoubles, rfl⟩ := haccepts
      rw [List.length_map]
      simp only [react]
      exact Or.inl (operator_reacts (Value.pack?_kind fun x hx =>
        hdoubles x.kind (List.mem_map_of_mem hx)))
  | index position =>
      obtain ⟨a, length, hargs, hlength, hposition, helement⟩ := haccepts
      obtain ⟨x, rfl, rfl⟩ := List.map_eq_singleton_iff.mp hargs
      exact Or.inl (operator_reacts (Value.index?_kind hlength helement hposition))
  | compose c =>
      obtain ⟨hparts, rfl⟩ := haccepts
      simp only [react]
      exact Or.inl (operator_reacts (Value.compose?_kind hparts))
  | identity =>
      obtain ⟨x, rfl, hx⟩ := List.map_eq_singleton_iff.mp haccepts
      exact Or.inl ⟨x, none, rfl, hx⟩
  | latch =>
      obtain ⟨hargs, rfl⟩ := haccepts
      obtain ⟨x, y, rfl, hx, hy⟩ := kinds_pair hargs
      obtain ⟨a, rfl⟩ := Value.asBoolean?_of_kind hx
      obtain ⟨b, rfl⟩ := Value.asBoolean?_of_kind hy
      exact Or.inl ⟨_, _, rfl, rfl⟩
  | anyOf =>
      obtain ⟨hbooleans, rfl⟩ := haccepts
      exact Or.inl (connective_reacts rfl hbooleans _ _ _)
  | allOf =>
      obtain ⟨hbooleans, rfl⟩ := haccepts
      exact Or.inl (connective_reacts rfl hbooleans _ _ _)
  | store slot => cases haccepts
  | custom typeName parameters => cases haccepts

/-! ### Fragments -/

namespace Fragment

/-- A block with an output accepts the kinds of its ports. -/
def TypedBlock (f : Fragment α) (blk : Block α) : Prop :=
  ∀ q, blk.output = some q → ∃ kinds kind,
    List.Forall₂ (fun input k => f.kindOf input = .ok k) blk.inputs kinds ∧
    f.kindOf q = .ok kind ∧ blk.primitive.Accepts kinds kind

/-- Every block accepts the kinds of its ports. -/
def Typed (f : Fragment α) : Prop :=
  ∀ {b : BlockId} {blk : Block α}, f.blocks[b]? = some blk → f.TypedBlock blk

/-- Some block of a primitive has an output of the given kind. -/
def Reads (f : Fragment α) (primitive : Primitive α) (kind : Kind) : Prop :=
  ∃ (b : BlockId) (blk : Block α) (q : PortId), f.blocks[b]? = some blk ∧
    blk.primitive = primitive ∧ blk.output = some q ∧ f.kindOf q = .ok kind

/-- Some block reads or fills a slot with values of the given kind. -/
def SlotKind (f : Fragment α) (slot : Nat) (kind : Kind) : Prop :=
  f.Reads (.load slot) kind ∨ ∃ (b : BlockId) (blk : Block α) (input : PortId),
    f.blocks[b]? = some blk ∧ blk.primitive = .store slot ∧ input ∈ blk.inputs ∧
    f.kindOf input = .ok kind

/-- All blocks on one slot agree on its kind. -/
def SlotsAgree (f : Fragment α) : Prop :=
  ∀ slot kind kind', f.SlotKind slot kind → f.SlotKind slot kind' → kind = kind'

omit [Scalar α] in
/-- A wire joins ports of one kind. -/
theorem WellFormed.kindOf_producer {f : Fragment α} (hf : f.WellFormed) {input source : PortId}
    (h : f.producer? input = some source) : f.kindOf source = f.kindOf input := by
  obtain ⟨s, t, hs, ht, -, -, hkind⟩ := hf.wires _ (hf.producer?_eq_some_iff.mp h)
  rw [Fragment.kindOf_eq_ok.mpr ⟨s, hs, rfl⟩, Fragment.kindOf_eq_ok.mpr ⟨t, ht, rfl⟩, hkind]

/-- The primitives of blocks with an output, with the kinds of the outputs. -/
def readers (f : Fragment α) : List (Primitive α × Kind) :=
  f.blocks.filterMap fun blk => do
    let q ← blk.output
    let kind ← (f.kindOf q).toOption
    return (blk.primitive, kind)

/-- The slots that blocks read or fill, with the kinds of their values. -/
def slotKinds (f : Fragment α) : List (Nat × Kind) :=
  (f.readers.filterMap fun
    | (.load slot, kind) => some (slot, kind)
    | _ => none) ++
  f.blocks.flatMap fun blk => match blk.primitive with
    | .store slot => blk.inputs.filterMap fun q => (f.kindOf q).toOption.map (slot, ·)
    | _ => []

omit [Scalar α] in
theorem toOption_kindOf {f : Fragment α} {q : PortId} {kind : Kind} :
    (f.kindOf q).toOption = some kind ↔ f.kindOf q = .ok kind := by
  cases f.kindOf q <;> simp [Except.toOption]

omit [Scalar α] in
theorem reads_iff {f : Fragment α} {primitive : Primitive α} {kind : Kind} :
    f.Reads primitive kind ↔ (primitive, kind) ∈ f.readers := by
  unfold readers
  rw [List.mem_filterMap]
  constructor
  · rintro ⟨b, blk, q, hblk, rfl, hout, hkind⟩
    refine ⟨blk, List.mem_of_getElem? hblk, ?_⟩
    simp [hout, toOption_kindOf.mpr hkind]
  · rintro ⟨blk, hmem, hblk⟩
    obtain ⟨b, hb⟩ := List.getElem?_of_mem hmem
    obtain ⟨q, hout, hrest⟩ := Option.bind_eq_some_iff.mp hblk
    obtain ⟨k, hk, heq⟩ := Option.bind_eq_some_iff.mp hrest
    cases heq
    exact ⟨b, blk, q, hb, rfl, hout, toOption_kindOf.mp hk⟩

omit [Scalar α] in
theorem slotKind_iff {f : Fragment α} {slot : Nat} {kind : Kind} :
    f.SlotKind slot kind ↔ (slot, kind) ∈ f.slotKinds := by
  unfold SlotKind slotKinds
  rw [List.mem_append, reads_iff]
  refine or_congr ?_ ?_
  · rw [List.mem_filterMap]
    constructor
    · intro h
      exact ⟨_, h, rfl⟩
    · rintro ⟨⟨primitive, k⟩, hmem, heq⟩
      cases primitive with
      | load other =>
          cases heq
          exact hmem
      | _ => cases heq
  · rw [List.mem_flatMap]
    constructor
    · rintro ⟨b, blk, input, hblk, hstore, hinput, hkind⟩
      refine ⟨blk, List.mem_of_getElem? hblk, ?_⟩
      rw [hstore]
      exact List.mem_filterMap.mpr ⟨input, hinput, by rw [toOption_kindOf.mpr hkind]; rfl⟩
    · rintro ⟨blk, hmem, hblk⟩
      obtain ⟨b, hb⟩ := List.getElem?_of_mem hmem
      cases hstore : blk.primitive with
      | store other =>
          rw [hstore] at hblk
          obtain ⟨input, hinput, heq⟩ := List.mem_filterMap.mp hblk
          obtain ⟨k, hk, heq⟩ := Option.map_eq_some_iff.mp heq
          cases heq
          exact ⟨b, blk, input, hb, hstore, hinput, toOption_kindOf.mp hk⟩
      | _ =>
          rw [hstore] at hblk
          cases hblk

/-- Whether all blocks on one slot agree can be checked. -/
instance (f : Fragment α) : Decidable f.SlotsAgree :=
  decidable_of_iff (∀ a ∈ f.slotKinds, ∀ b ∈ f.slotKinds, a.1 = b.1 → a.2 = b.2) <| by
    simp only [SlotsAgree, slotKind_iff]
    constructor
    · intro h slot kind kind' ha hb
      exact h _ ha _ hb rfl
    · rintro h ⟨slot, kind⟩ ha ⟨slot', kind'⟩ hb rfl
      exact h slot kind kind' ha hb

/-! ### Growing fragments -/

/-- A port is an output for values of the given kind. -/
def Offers (f : Fragment α) (q : PortId) (kind : Kind) : Prop :=
  ∃ port, f.ports[q]? = some port ∧ port.direction = .output ∧ port.kind = kind

omit [Scalar α] in
theorem Offers.kindOf {f : Fragment α} {q : PortId} {kind : Kind} (h : f.Offers q kind) :
    f.kindOf q = .ok kind := by
  obtain ⟨port, hport, -, hkind⟩ := h
  exact kindOf_eq_ok.mpr ⟨port, hport, hkind⟩

omit [Scalar α] in
theorem Offers.extend {f g : Fragment α} (hg : f.Extends g) {q : PortId} {kind : Kind}
    (h : f.Offers q kind) : g.Offers q kind := by
  obtain ⟨port, hport, hrest⟩ := h
  exact ⟨port, hg.port hport, hrest⟩

omit [Scalar α] in
theorem Added.offers {f g : Fragment α} {primitive : Primitive α} {sources : List PortId}
    {kinds : List Kind} {kind : Kind} {q : PortId}
    (h : Added f g primitive sources kinds kind q) : g.Offers q kind :=
  ⟨_, h.output, rfl, rfl⟩

/-- All ports of a registry are outputs for booleans. -/
def Signals (f : Fragment α) (r : Registry) : Prop :=
  ∀ signal q, (signal, q) ∈ r.entries → f.Offers q .boolean

omit [Scalar α] in
theorem Signals.extend {f g : Fragment α} (hg : f.Extends g) {r : Registry} (h : f.Signals r) :
    g.Signals r :=
  fun signal q hq => (h signal q hq).extend hg

omit [Scalar α] in
theorem signals_empty (f : Fragment α) : f.Signals {} :=
  fun _ _ hq => absurd hq List.not_mem_nil

omit [Scalar α] in
theorem Signals.register {f : Fragment α} {r : Registry} (h : f.Signals r) {q : PortId}
    (hq : f.Offers q .boolean) (signal : Signal) : f.Signals (r.register signal q) := by
  unfold Registry.register
  split
  · exact h
  · intro other p hp
    rcases List.mem_append.mp hp with hold | hnew
    · exact h other p hold
    · cases List.mem_singleton.mp hnew
      exact hq

omit [Scalar α] in
theorem Signals.statePorts {f : Fragment α} {r : Registry} (h : f.Signals r) (state : State) :
    ∀ q ∈ r.statePorts state, f.Offers q .boolean := by
  intro q hq
  obtain ⟨⟨signal, p⟩, hentry, hp⟩ := List.mem_filterMap.mp hq
  cases signal with
  | state t =>
      by_cases ht : t = state
      · simp only [ht, if_true, Option.some.injEq] at hp
        subst hp
        exact h _ p hentry
      · simp [ht] at hp
  | exception c => cases hp

omit [Scalar α] in
theorem Signals.exceptionPorts {f : Fragment α} {r : Registry} (h : f.Signals r)
    (c : ExceptionClass) : ∀ q ∈ r.exceptionPorts c, f.Offers q .boolean := by
  intro q hq
  obtain ⟨⟨signal, p⟩, hentry, hp⟩ := List.mem_filterMap.mp hq
  cases signal with
  | state t => cases hp
  | exception e =>
      by_cases he : e.isA c = true
      · simp only [he, if_true, Option.some.injEq] at hp
        subst hp
        exact h _ p hentry
      · simp [he] at hp

theorem TypedBlock.extend {f g : Fragment α} (hg : f.Extends g) {blk : Block α}
    (h : f.TypedBlock blk) : g.TypedBlock blk := by
  intro q hq
  obtain ⟨kinds, kind, hinputs, hkind, haccepts⟩ := h q hq
  exact ⟨kinds, kind, hinputs.imp fun _ _ => hg.kindOf, hg.kindOf hkind, haccepts⟩

/-- A block that accepts the kinds of its ports keeps a fragment typed. -/
theorem Typed.withBlock {f : Fragment α} (hf : f.Typed) {primitive : Primitive α}
    {kinds : List Kind} {output : Option Kind}
    (haccepts : ∀ kind, output = some kind → primitive.Accepts kinds kind) :
    (f.withBlock primitive kinds output).Typed := by
  intro b blk hb
  rcases withBlock_block_cases hb with hold | ⟨rfl, rfl⟩
  · exact (hf hold).extend withBlock_extends
  · intro q hq
    obtain ⟨kind, rfl, rfl⟩ := Option.map_eq_some_iff.mp hq
    refine ⟨kinds, kind, ?_, ?_, haccepts kind rfl⟩
    · rw [List.forall₂_iff_get]
      refine ⟨by simp, ?_⟩
      intro i hi hi'
      have hinput : (f.withBlock primitive kinds (some kind)).ports[f.ports.length + i]? =
          some ⟨f.blocks.length, .input, kinds[i], i⟩ :=
        withBlock_input (List.getElem?_eq_getElem hi')
      simpa using kindOf_eq_ok.mpr ⟨_, hinput, rfl⟩
    · exact kindOf_eq_ok.mpr ⟨_, withBlock_output, rfl⟩

theorem Added.typed {f g : Fragment α} {primitive : Primitive α} {sources : List PortId}
    {kinds : List Kind} {kind : Kind} {q : PortId}
    (h : Added f g primitive sources kinds kind q) (hf : f.Typed)
    (haccepts : primitive.Accepts kinds kind) : g.Typed := by
  have hblock : (f.withBlock primitive kinds (some kind)).Typed :=
    hf.withBlock fun k hk => Option.some.inj hk ▸ haccepts
  rw [h.result]
  intro b blk hb
  exact hblock hb

end Fragment

/-- What is set from outside has the kinds of all ports that read it. -/
structure Stimulus.Fits (x : Stimulus α) (f : Fragment α) : Prop where
  inputs : ∀ name v, (name, v) ∈ x.inputs → ∀ kind, f.Reads (.input name) kind → v.kind = kind
  sensors : ∀ name v, (name, v) ∈ x.sensors → ∀ device kind, f.Reads (.sensor name device) kind →
    v.kind = kind
  slots : ∀ slot v, (slot, v) ∈ x.slots → ∀ kind, f.Reads (.load slot) kind → v.kind = kind

/-- The name of a sensor. -/
def Primitive.sensorName? : Primitive α → Option String
  | .sensor name _ => some name
  | _ => none

omit [Scalar α] in
/-- A stimulus fits if it does at each block. -/
theorem Stimulus.fits_iff {x : Stimulus α} {f : Fragment α} :
    x.Fits f ↔ ∀ reader ∈ f.readers,
      (∀ entry ∈ x.inputs, reader.1 = .input entry.1 → entry.2.kind = reader.2) ∧
      (∀ entry ∈ x.sensors, reader.1.sensorName? = some entry.1 → entry.2.kind = reader.2) ∧
      ∀ entry ∈ x.slots, reader.1 = .load entry.1 → entry.2.kind = reader.2 := by
  constructor
  · rintro h ⟨primitive, kind⟩ hreader
    have hreads := Fragment.reads_iff.mpr hreader
    refine ⟨?_, ?_, ?_⟩
    · rintro ⟨name, v⟩ hentry rfl
      exact h.inputs name v hentry kind hreads
    · rintro ⟨name, v⟩ hentry hname
      cases primitive with
      | sensor own device =>
          cases hname
          exact h.sensors name v hentry device kind hreads
      | _ => cases hname
    · rintro ⟨slot, v⟩ hentry rfl
      exact h.slots slot v hentry kind hreads
  · intro h
    refine ⟨?_, ?_, ?_⟩
    · intro name v hentry kind hreads
      exact (h _ (Fragment.reads_iff.mp hreads)).1 (name, v) hentry rfl
    · intro name v hentry device kind hreads
      exact (h _ (Fragment.reads_iff.mp hreads)).2.1 (name, v) hentry rfl
    · intro slot v hentry kind hreads
      exact (h _ (Fragment.reads_iff.mp hreads)).2.2 (slot, v) hentry rfl

/-- Whether a stimulus fits can be checked. -/
instance (x : Stimulus α) (f : Fragment α) : Decidable (x.Fits f) :=
  decidable_of_iff _ Stimulus.fits_iff.symm

omit [Scalar α] in
/-- A table after insertions holds old values and inserted ones. -/
theorem get?_insertAll {κ : Type} [DecidableEq κ] {xs : List (κ × Value α)}
    {t : Table κ (Value α)} {k : κ} {v : Value α}
    (h : (xs.foldl (fun t (k, v) => t.insert k v) t).get? k = some v) :
    t.get? k = some v ∨ (k, v) ∈ xs := by
  induction xs generalizing t with
  | nil => exact Or.inl h
  | cons entry rest ih =>
      obtain ⟨j, w⟩ := entry
      rcases ih h with hinsert | hrest
      · rcases Table.get?_insert_cases hinsert with ⟨rfl, rfl⟩ | hold
        · exact Or.inr (by simp)
        · exact Or.inl hold
      · exact Or.inr (List.mem_cons_of_mem _ hrest)

omit [Scalar α] in
/-- Surroundings that fit still fit after a stimulus that does. -/
theorem Surroundings.Fits.feed {f : Fragment α} {around : Surroundings α}
    (h : ∀ primitive kind, f.Reads primitive kind → around.Fits kind primitive) {x : Stimulus α}
    (hx : x.Fits f) (primitive : Primitive α) (kind : Kind) (hreads : f.Reads primitive kind) :
    (around.feed x).Fits kind primitive := by
  have hbefore := h primitive kind hreads
  cases primitive with
  | input name =>
      intro v hv
      rcases get?_insertAll hv with hold | hnew
      · exact hbefore v hold
      · exact hx.inputs name v hnew kind hreads
  | sensor name device =>
      intro v hv
      rcases get?_insertAll hv with hold | hnew
      · exact hbefore v hold
      · exact hx.sensors name v hnew device kind hreads
  | load slot =>
      intro v hv
      rcases get?_insertAll hv with hold | hnew
      · exact hbefore v hold
      · exact hx.slots slot v hnew kind hreads
  | _ => trivial

end SignalNet
