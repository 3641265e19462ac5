import Mathlib.Data.List.Nodup
import SignalNet.Net.Fragment
import SignalNet.Proofs.Computation

/-!
# Well-formed fragments

A fragment is *well formed* if its blocks, ports and wires refer to each other
as they should (`Fragment.WellFormed`): the ports of a block name the block
and their place in it, every wire runs from an output to an input of the same
kind, and no input has two wires.

The calls on a fragment are described exactly, and once:

* `Fragment.addBlock_eq_ok` and `Fragment.connect_eq_ok` say when a call
  succeeds and which fragment it leaves;
* `Fragment.Added` is what a fed block adds, and `Fragment.addWired_added` and
  `Fragment.addSource_added` say that it is what the two calls add.

From `Added` follow well-formedness (`Fragment.Added.wellFormed`), growth
(`Fragment.Added.extends`) and the new block itself as the network sees it
(`Fragment.Added.produces`).
-/

namespace SignalNet.Fragment

open Computing

variable {α : Type}

/-- Blocks, ports and wires refer to each other as they should. -/
structure WellFormed (f : Fragment α) : Prop where
  inputs : ∀ {b : BlockId} {blk : Block α}, f.blocks[b]? = some blk →
    ∀ {i q : Nat}, blk.inputs[i]? = some q → ∃ kind, f.ports[q]? = some ⟨b, .input, kind, i⟩
  output : ∀ {b : BlockId} {blk : Block α}, f.blocks[b]? = some blk →
    ∀ {q : Nat}, blk.output = some q → ∃ kind, f.ports[q]? = some ⟨b, .output, kind, 0⟩
  owner : ∀ {q : Nat} {port : Port}, f.ports[q]? = some port →
    ∃ blk, f.blocks[port.block]? = some blk ∧
      (port.direction = .input → blk.inputs[port.slot]? = some q) ∧
      (port.direction = .output → blk.output = some q)
  arity : ∀ {b : BlockId} {blk : Block α}, f.blocks[b]? = some blk →
    ∀ n, blk.primitive.arity? = some n → blk.inputs.length = n
  sink : ∀ {b : BlockId} {blk : Block α}, f.blocks[b]? = some blk →
    blk.primitive.isSink = blk.output.isNone
  wires : ∀ c ∈ f.connections, ∃ s t, f.ports[c.source]? = some s ∧ f.ports[c.target]? = some t ∧
    s.direction = .output ∧ t.direction = .input ∧ s.kind = t.kind
  driven : (f.connections.map (·.target)).Nodup
  exposed : ∀ {name : String} {q : PortId}, f.output? name = some q →
    ∃ port, f.ports[q]? = some port ∧ port.direction = .output

theorem wellFormed_empty : (empty : Fragment α).WellFormed where
  inputs h := by simp [empty] at h
  output h := by simp [empty] at h
  owner h := by simp [empty] at h
  arity h := by simp [empty] at h
  sink h := by simp [empty] at h
  wires := by simp [empty]
  driven := by simp [empty]
  exposed h := by simp [empty, output?, Table.get?] at h

/-- The second fragment holds the blocks, ports and wires of the first one in
the same places, and its names. -/
structure Extends (f g : Fragment α) : Prop where
  blocks : f.blocks <+: g.blocks
  ports : f.ports <+: g.ports
  connections : f.connections <+: g.connections
  outputs : ∀ {name : String} {q : PortId}, f.output? name = some q → g.output? name = some q

theorem Extends.refl (f : Fragment α) : f.Extends f :=
  ⟨List.prefix_rfl, List.prefix_rfl, List.prefix_rfl, id⟩

theorem Extends.trans {f g h : Fragment α} (hfg : f.Extends g) (hgh : g.Extends h) :
    f.Extends h :=
  ⟨hfg.blocks.trans hgh.blocks, hfg.ports.trans hgh.ports, hfg.connections.trans hgh.connections,
    fun hq => hgh.outputs (hfg.outputs hq)⟩

/-- A longer list keeps its members in their places. -/
theorem getElem?_of_prefix {β : Type} {xs ys : List β} (h : xs <+: ys) {i : Nat} {x : β}
    (hx : xs[i]? = some x) : ys[i]? = some x := by
  obtain ⟨rest, rfl⟩ := h
  rw [List.getElem?_append_left (List.getElem?_eq_some_iff.mp hx).1]
  exact hx

theorem Extends.block {f g : Fragment α} (h : f.Extends g) {b : BlockId} {blk : Block α}
    (hb : f.blocks[b]? = some blk) : g.blocks[b]? = some blk :=
  getElem?_of_prefix h.blocks hb

theorem Extends.port {f g : Fragment α} (h : f.Extends g) {q : PortId} {port : Port}
    (hq : f.ports[q]? = some port) : g.ports[q]? = some port :=
  getElem?_of_prefix h.ports hq

/-- An input keeps its producer. -/
theorem Extends.producer? {f g : Fragment α} (h : f.Extends g) {input source : PortId}
    (hs : f.producer? input = some source) : g.producer? input = some source := by
  obtain ⟨rest, hrest⟩ := h.connections
  obtain ⟨c, hc, rfl⟩ := Option.map_eq_some_iff.mp hs
  show (g.connections.find? fun c => decide (c.target = input)).map (·.source) = some c.source
  rw [← hrest, List.find?_append, hc]
  rfl

theorem kindOf_eq_ok {f : Fragment α} {q : PortId} {kind : Kind} :
    f.kindOf q = .ok kind ↔ ∃ port, f.ports[q]? = some port ∧ port.kind = kind := by
  unfold kindOf Fragment.port
  cases f.ports[q]? with
  | none => simp [Except.map]
  | some port => simp [Except.map]

theorem Extends.kindOf {f g : Fragment α} (h : f.Extends g) {q : PortId} {kind : Kind}
    (hq : f.kindOf q = .ok kind) : g.kindOf q = .ok kind := by
  obtain ⟨port, hport, hkind⟩ := kindOf_eq_ok.mp hq
  exact kindOf_eq_ok.mpr ⟨port, h.port hport, hkind⟩

/-- In a well-formed fragment the producer of an input is the source of its
wire. -/
theorem WellFormed.producer?_eq_some_iff {f : Fragment α} (hf : f.WellFormed)
    {input source : PortId} :
    f.producer? input = some source ↔ ⟨source, input⟩ ∈ f.connections := by
  constructor
  · intro h
    obtain ⟨c, hc, rfl⟩ := Option.map_eq_some_iff.mp h
    have htarget : c.target = input := by simpa using List.find?_some hc
    subst htarget
    exact List.mem_of_find?_eq_some hc
  · intro hmem
    cases hfind : f.connections.find? fun c => decide (c.target = input) with
    | none =>
        have hno := List.find?_eq_none.mp hfind _ hmem
        simp at hno
    | some c =>
        have htarget : c.target = input := by simpa using List.find?_some hfind
        have hc := List.mem_of_find?_eq_some hfind
        -- Two wires into one input are the same wire.
        have heq : c = ⟨source, input⟩ :=
          List.inj_on_of_nodup_map hf.driven hc hmem htarget
        show (f.connections.find? fun c => decide (c.target = input)).map (·.source) = some source
        rw [hfind, heq]
        rfl

/-! ### Single calls -/

/-- The fragment with one more block. -/
def withBlock (f : Fragment α) (primitive : Primitive α) (inputs : List Kind)
    (output : Option Kind) : Fragment α :=
  { f with
    ports := f.ports ++ inputPorts f.blocks.length inputs ++
      (output.map fun kind => (⟨f.blocks.length, .output, kind, 0⟩ : Port)).toList
    blocks := f.blocks ++ [⟨primitive, List.range' f.ports.length inputs.length,
      output.map fun _ => f.ports.length + inputs.length⟩] }

/-- A primitive takes a number of inputs and has an output or not. -/
def Fits (primitive : Primitive α) (inputs : List Kind) (output : Option Kind) : Prop :=
  (∀ n, primitive.arity? = some n → inputs.length = n) ∧ primitive.isSink = output.isNone

theorem addBlock_eq_ok {f g : Fragment α} {primitive : Primitive α} {inputs : List Kind}
    {output : Option Kind} {id : BlockId} :
    addBlock primitive inputs output f = .ok id g ↔
      Fits primitive inputs output ∧ id = f.blocks.length ∧
        g = f.withBlock primitive inputs output := by
  unfold addBlock Fits withBlock
  cases harity : primitive.arity? with
  | none =>
      by_cases hsink : primitive.isSink = output.isNone
      · simp [hsink, eq_comm]
      · simp [hsink]
  | some n =>
      by_cases hn : inputs.length = n
      · by_cases hsink : primitive.isSink = output.isNone
        · simp [hn, hsink, eq_comm]
        · simp [hn, hsink]
      · have hne : n ≠ inputs.length := fun h => hn h.symm
        simp [hn, hne]

/-- The fragment with more wires. -/
def withWires (f : Fragment α) (wires : List Connection) : Fragment α :=
  { f with connections := f.connections ++ wires }

theorem connect_eq_ok {f g : Fragment α} {source target : PortId} {u : Unit} :
    connect source target f = .ok u g ↔
      (∃ s t, f.ports[source]? = some s ∧ f.ports[target]? = some t ∧ s.direction = .output ∧
        t.direction = .input ∧ s.kind = t.kind) ∧
      f.producer? target = none ∧ g = f.withWires [⟨source, target⟩] := by
  unfold connect Fragment.port withWires
  cases hs : f.ports[source]? with
  | none => simp
  | some s =>
      cases ht : f.ports[target]? with
      | none => simp
      | some t =>
          by_cases hdirection : s.direction = .output ∧ t.direction = .input
          · obtain ⟨hout, hin⟩ := hdirection
            by_cases hkind : s.kind = t.kind
            · cases hproducer : f.producer? target with
              | none => simp [hout, hin, hkind, eq_comm]
              | some existing => simp [hout, hin, hkind]
            · simp [hout, hin, hkind]
          · have hno : s.direction ≠ .output ∨ t.direction ≠ .input := by
              by_contra hboth
              push Not at hboth
              exact hdirection hboth
            simp only [if_pos hno]
            constructor
            · intro h
              cases h
            · rintro ⟨⟨s', t', hs', ht', hout, hin, -⟩, -⟩
              cases hs'
              cases ht'
              exact absurd ⟨hout, hin⟩ hdirection

/-- A wire to an input without producer keeps a fragment well formed. -/
theorem WellFormed.withWire {f : Fragment α} (hf : f.WellFormed) {source target : PortId}
    (hports : ∃ s t, f.ports[source]? = some s ∧ f.ports[target]? = some t ∧
      s.direction = .output ∧ t.direction = .input ∧ s.kind = t.kind)
    (hfree : f.producer? target = none) : (f.withWires [⟨source, target⟩]).WellFormed where
  inputs := hf.inputs
  output := hf.output
  owner := hf.owner
  arity := hf.arity
  sink := hf.sink
  wires := by
    intro c hc
    rcases List.mem_append.mp hc with hold | hnew
    · exact hf.wires c hold
    · obtain rfl := List.mem_singleton.mp hnew
      exact hports
  driven := by
    have hnot : target ∉ f.connections.map (·.target) := by
      intro hmem
      obtain ⟨⟨s, t⟩, hc, rfl⟩ := List.mem_map.mp hmem
      have hs := hf.producer?_eq_some_iff.mpr hc
      simp [hfree] at hs
    show ((f.connections ++ [(⟨source, target⟩ : Connection)]).map (·.target)).Nodup
    rw [List.map_append, List.nodup_append]
    refine ⟨hf.driven, by simp, ?_⟩
    intro a ha b hb hab
    simp only [List.map_cons, List.map_nil, List.mem_singleton] at hb
    exact hnot (hb ▸ hab ▸ ha)
  exposed := hf.exposed

theorem withWires_extends (f : Fragment α) (wires : List Connection) :
    f.Extends (f.withWires wires) :=
  ⟨List.prefix_rfl, List.prefix_rfl, List.prefix_append _ _, id⟩

/-- Wiring lists of ports adds their wires in order. -/
theorem connectAll_eq_ok {f g : Fragment α} {pairs : List (PortId × PortId)} {u : Unit}
    (hf : f.WellFormed) (h : connectAll pairs f = .ok u g) :
    g.WellFormed ∧ g = f.withWires (pairs.map fun (s, t) => ⟨s, t⟩) := by
  induction pairs generalizing f with
  | nil =>
      obtain ⟨-, rfl⟩ := pure_eq_ok.mp h
      exact ⟨hf, by simp [withWires]⟩
  | cons pair rest ih =>
      obtain ⟨source, target⟩ := pair
      obtain ⟨_, f', hconnect, hrest⟩ := bind_eq_ok.mp h
      obtain ⟨hports, hfree, rfl⟩ := connect_eq_ok.mp hconnect
      obtain ⟨hg, rfl⟩ := ih (hf.withWire hports hfree) hrest
      exact ⟨hg, by simp [withWires]⟩

/-! ### The ports of a new block -/

section NewBlock

variable {f : Fragment α} {primitive : Primitive α} {kinds : List Kind} {output : Option Kind}

theorem withBlock_extends : f.Extends (f.withBlock primitive kinds output) := by
  refine ⟨List.prefix_append _ _, ?_, List.prefix_rfl, id⟩
  exact (List.prefix_append _ _).trans (List.prefix_append _ _)

/-- The new block. -/
theorem withBlock_block : (f.withBlock primitive kinds output).blocks[f.blocks.length]? =
    some ⟨primitive, List.range' f.ports.length kinds.length,
      output.map fun _ => f.ports.length + kinds.length⟩ := by
  simp [withBlock]

/-- Its input ports. -/
theorem withBlock_input {i : Nat} {kind : Kind} (h : kinds[i]? = some kind) :
    (f.withBlock primitive kinds output).ports[f.ports.length + i]? =
      some ⟨f.blocks.length, .input, kind, i⟩ := by
  have hi : i < (inputPorts f.blocks.length kinds).length := by
    simpa [inputPorts] using (List.getElem?_eq_some_iff.mp h).1
  simp only [withBlock, List.append_assoc]
  rw [List.getElem?_append_right (Nat.le_add_right _ _), Nat.add_sub_cancel_left,
    List.getElem?_append_left hi]
  simp [inputPorts, h]

/-- Its output port. -/
theorem withBlock_output {kind : Kind} :
    (f.withBlock primitive kinds (some kind)).ports[f.ports.length + kinds.length]? =
      some ⟨f.blocks.length, .output, kind, 0⟩ := by
  have hlength : (f.ports ++ inputPorts f.blocks.length kinds).length =
      f.ports.length + kinds.length := by simp [inputPorts]
  simp only [withBlock]
  rw [List.getElem?_append_right (Nat.le_of_eq hlength), hlength, Nat.sub_self]
  rfl

theorem withBlock_block_cases {b : BlockId} {blk : Block α}
    (h : (f.withBlock primitive kinds output).blocks[b]? = some blk) :
    f.blocks[b]? = some blk ∨ b = f.blocks.length ∧
      blk = ⟨primitive, List.range' f.ports.length kinds.length,
        output.map fun _ => f.ports.length + kinds.length⟩ := by
  by_cases hb : b < f.blocks.length
  · rw [withBlock, List.getElem?_append_left hb] at h
    exact Or.inl h
  · have hlt := (List.getElem?_eq_some_iff.mp h).1
    have hlength : (f.withBlock primitive kinds output).blocks.length = f.blocks.length + 1 := by
      simp [withBlock]
    rw [hlength] at hlt
    obtain rfl : b = f.blocks.length := Nat.eq_of_lt_succ_of_not_lt hlt hb
    rw [withBlock_block] at h
    exact Or.inr ⟨rfl, (Option.some.inj h).symm⟩

theorem withBlock_port_cases {q : Nat} {port : Port}
    (h : (f.withBlock primitive kinds output).ports[q]? = some port) :
    f.ports[q]? = some port ∨
      (∃ i kind, kinds[i]? = some kind ∧ q = f.ports.length + i ∧
        port = ⟨f.blocks.length, .input, kind, i⟩) ∨
      (∃ kind, output = some kind ∧ q = f.ports.length + kinds.length ∧
        port = ⟨f.blocks.length, .output, kind, 0⟩) := by
  by_cases hold : q < f.ports.length
  · have hold' : q < (f.ports ++ inputPorts f.blocks.length kinds).length := by
      rw [List.length_append]
      omega
    rw [withBlock, List.getElem?_append_left hold', List.getElem?_append_left hold] at h
    exact Or.inl h
  · right
    obtain ⟨i, rfl⟩ : ∃ i, q = f.ports.length + i := ⟨q - f.ports.length, by omega⟩
    by_cases hi : i < kinds.length
    · have hkind := List.getElem?_eq_getElem hi
      rw [withBlock_input hkind] at h
      exact Or.inl ⟨i, kinds[i], hkind, rfl, (Option.some.inj h).symm⟩
    · right
      cases output with
      | none =>
          have hlt := (List.getElem?_eq_some_iff.mp h).1
          simp [withBlock, inputPorts] at hlt
          omega
      | some kind =>
          have hlt := (List.getElem?_eq_some_iff.mp h).1
          simp only [withBlock, inputPorts, List.length_append, List.length_mapIdx,
            Option.map_some, Option.toList_some, List.length_cons, List.length_nil] at hlt
          obtain rfl : i = kinds.length := by omega
          rw [withBlock_output] at h
          exact ⟨kind, rfl, rfl, (Option.some.inj h).symm⟩

/-- Adding a block keeps a fragment well formed. -/
theorem WellFormed.withBlock (hf : f.WellFormed) (hfits : Fits primitive kinds output) :
    (f.withBlock primitive kinds output).WellFormed where
  inputs := by
    intro b blk hb i q hq
    rcases withBlock_block_cases hb with hold | ⟨rfl, rfl⟩
    · obtain ⟨kind, hport⟩ := hf.inputs hold hq
      exact ⟨kind, withBlock_extends.port hport⟩
    · obtain ⟨hi, rfl⟩ := List.getElem?_eq_some_iff.mp hq
      simp only [List.length_range'] at hi
      have hkind := List.getElem?_eq_getElem hi
      refine ⟨kinds[i], ?_⟩
      simpa using withBlock_input hkind
  output := by
    intro b blk hb q hq
    rcases withBlock_block_cases hb with hold | ⟨rfl, rfl⟩
    · obtain ⟨kind, hport⟩ := hf.output hold hq
      exact ⟨kind, withBlock_extends.port hport⟩
    · obtain ⟨kind, rfl, rfl⟩ := Option.map_eq_some_iff.mp hq
      exact ⟨kind, withBlock_output⟩
  owner := by
    intro q port hq
    rcases withBlock_port_cases hq with hold | ⟨i, kind, hkind, rfl, rfl⟩ | ⟨kind, rfl, rfl, rfl⟩
    · obtain ⟨blk, hblk, hin, hout⟩ := hf.owner hold
      exact ⟨blk, withBlock_extends.block hblk, hin, hout⟩
    · have hi := (List.getElem?_eq_some_iff.mp hkind).1
      refine ⟨_, withBlock_block, fun _ => ?_, by simp⟩
      simp [hi]
    · exact ⟨_, withBlock_block, by simp, by simp⟩
  arity := by
    intro b blk hb n hn
    rcases withBlock_block_cases hb with hold | ⟨rfl, rfl⟩
    · exact hf.arity hold n hn
    · simpa using hfits.1 n hn
  sink := by
    intro b blk hb
    rcases withBlock_block_cases hb with hold | ⟨rfl, rfl⟩
    · exact hf.sink hold
    · simpa using hfits.2
  wires := by
    intro c hc
    obtain ⟨s, t, hs, ht, hrest⟩ := hf.wires c hc
    exact ⟨s, t, withBlock_extends.port hs, withBlock_extends.port ht, hrest⟩
  driven := hf.driven
  exposed := by
    intro name q hq
    obtain ⟨port, hport, hdirection⟩ := hf.exposed hq
    exact ⟨port, withBlock_extends.port hport, hdirection⟩

end NewBlock

/-! ### A block and its wires -/

/-- The wires of a new block whose first port has the given number. -/
def wiresFrom (first : PortId) (sources : List PortId) : List Connection :=
  (sources.zip (List.range' first sources.length)).map fun (s, t) => ⟨s, t⟩

/-- What a block fed by the given ports adds to a fragment: the block itself,
its ports and its wires.  Its output is the last of its ports. -/
structure Added (f g : Fragment α) (primitive : Primitive α) (sources : List PortId)
    (kinds : List Kind) (kind : Kind) (q : PortId) : Prop where
  sourceKinds : sources.mapM f.kindOf = .ok kinds
  fits : Fits primitive kinds (some kind)
  port : q = f.ports.length + sources.length
  result : g = (f.withBlock primitive kinds (some kind)).withWires
    (wiresFrom f.ports.length sources)
  valid : g.WellFormed

theorem ofExcept_eq_ok {β : Type} {x : Except NetError β} {b : β} {f g : Fragment α} :
    Wiring.ofExcept x f = .ok b g ↔ x = .ok b ∧ f = g := by
  cases x with
  | ok c => simp [Wiring.ofExcept]
  | error e => simp [Wiring.ofExcept]

theorem block_eq_ok {f : Fragment α} {b : BlockId} {blk : Block α} :
    f.block b = .ok blk ↔ f.blocks[b]? = some blk := by
  unfold Fragment.block
  cases f.blocks[b]? with
  | none => simp
  | some found => simp

theorem outputPort_eq_ok {f : Fragment α} {b : BlockId} {q : PortId} :
    f.outputPort b = .ok q ↔ ∃ blk, f.blocks[b]? = some blk ∧ blk.output = some q := by
  unfold outputPort Fragment.block
  cases f.blocks[b]? with
  | none => simp
  | some blk => cases hout : blk.output <;> simp [hout]

/-- The output port of a block just added. -/
theorem outputPort_withBlock {f : Fragment α} {primitive : Primitive α} {kinds : List Kind}
    {kind : Kind} {wires : List Connection} {q : PortId}
    (h : ((f.withBlock primitive kinds (some kind)).withWires wires).outputPort f.blocks.length =
      .ok q) : q = f.ports.length + kinds.length := by
  obtain ⟨blk, hblk, hout⟩ := outputPort_eq_ok.mp h
  have hblock : (f.withBlock primitive kinds (some kind)).blocks[f.blocks.length]? = some blk :=
    hblk
  rw [withBlock_block] at hblock
  cases hblock
  exact (Option.some.inj hout).symm

/-- A fed block is added as `Added` says. -/
theorem addWired_added {f g : Fragment α} (hf : f.WellFormed) {primitive : Primitive α}
    {sources : List PortId} {kind : Kind} {q : PortId}
    (h : addWired primitive sources kind f = .ok q g) :
    ∃ kinds, Added f g primitive sources kinds kind q := by
  obtain ⟨_, _, hget, hafter⟩ := bind_eq_ok.mp h
  obtain ⟨rfl, rfl⟩ := get_eq_ok.mp hget
  obtain ⟨kinds, _, hlookup, hafter⟩ := bind_eq_ok.mp hafter
  obtain ⟨hkinds, rfl⟩ := ofExcept_eq_ok.mp hlookup
  obtain ⟨id, f₁, hadd, hafter⟩ := bind_eq_ok.mp hafter
  obtain ⟨hfits, rfl, rfl⟩ := addBlock_eq_ok.mp hadd
  obtain ⟨_, _, hget₁, hafter⟩ := bind_eq_ok.mp hafter
  obtain ⟨rfl, rfl⟩ := get_eq_ok.mp hget₁
  obtain ⟨blk, _, hfind, hafter⟩ := bind_eq_ok.mp hafter
  obtain ⟨hblk, rfl⟩ := ofExcept_eq_ok.mp hfind
  rw [block_eq_ok, withBlock_block] at hblk
  cases hblk
  obtain ⟨_, f₂, hwires, hafter⟩ := bind_eq_ok.mp hafter
  obtain ⟨hvalid, rfl⟩ := connectAll_eq_ok (hf.withBlock hfits) hwires
  obtain ⟨_, _, hget₂, hafter⟩ := bind_eq_ok.mp hafter
  obtain ⟨rfl, rfl⟩ := get_eq_ok.mp hget₂
  obtain ⟨hport, rfl⟩ := ofExcept_eq_ok.mp hafter
  have hlength : sources.length = kinds.length :=
    (mapM_ok_iff_forall₂.mp hkinds).length_eq
  refine ⟨kinds, hkinds, hfits, ?_, ?_, hvalid⟩
  · rw [hlength]
    exact outputPort_withBlock hport
  · rw [wiresFrom, hlength]

/-- So is a block without inputs. -/
theorem addSource_added {f g : Fragment α} (hf : f.WellFormed) {primitive : Primitive α}
    {kind : Kind} {q : PortId} (h : addSource primitive kind f = .ok q g) :
    Added f g primitive [] [] kind q := by
  obtain ⟨id, f₁, hadd, hafter⟩ := bind_eq_ok.mp h
  obtain ⟨hfits, rfl, rfl⟩ := addBlock_eq_ok.mp hadd
  obtain ⟨_, _, hget, hafter⟩ := bind_eq_ok.mp hafter
  obtain ⟨rfl, rfl⟩ := get_eq_ok.mp hget
  obtain ⟨hport, rfl⟩ := ofExcept_eq_ok.mp hafter
  have hsame : (f.withBlock primitive [] (some kind)).withWires [] =
      f.withBlock primitive [] (some kind) := by
    simp [withWires]
  refine ⟨rfl, hfits, ?_, hsame.symm, hf.withBlock hfits⟩
  rw [← hsame] at hport
  exact outputPort_withBlock hport

/-- A port carries what a block makes of other ports. -/
structure Produces (f : Fragment α) (q : PortId) (primitive : Primitive α)
    (sources : List PortId) (kind : Kind) (b : BlockId) (blk : Block α) : Prop where
  block : f.blocks[b]? = some blk
  primitive : blk.primitive = primitive
  output : blk.output = some q
  port : f.ports[q]? = some ⟨b, .output, kind, 0⟩
  fed : List.Forall₂ (fun input source => f.producer? input = some source) blk.inputs sources

/-- Some block makes the value of a port from other ports. -/
def Makes (f : Fragment α) (q : PortId) (primitive : Primitive α) (sources : List PortId)
    (kind : Kind) : Prop :=
  ∃ b blk, f.Produces q primitive sources kind b blk

theorem Produces.extend {f g : Fragment α} {q : PortId} {primitive : Primitive α}
    {sources : List PortId} {kind : Kind} {b : BlockId} {blk : Block α}
    (h : f.Produces q primitive sources kind b blk) (hg : f.Extends g) :
    g.Produces q primitive sources kind b blk :=
  ⟨hg.block h.block, h.primitive, h.output, hg.port h.port, h.fed.imp fun _ _ => hg.producer?⟩

/-- The constant behind a port, if its block is one. -/
def constantAt? (f : Fragment α) (q : PortId) : Option (Value α) := do
  let port ← f.ports[q]?
  let blk ← f.blocks[port.block]?
  match blk.primitive with
  | .constant v => some v
  | _ => none

theorem Makes.constantAt? {f : Fragment α} {q : PortId} {v : Value α} {kind : Kind}
    (h : f.Makes q (.constant v) [] kind) : f.constantAt? q = some v := by
  obtain ⟨b, blk, hproduces⟩ := h
  simp [Fragment.constantAt?, hproduces.port, hproduces.block, hproduces.primitive]

/-- The producer of a port is one block, fed by one list of ports. -/
theorem Produces.unique {f : Fragment α} {q : PortId} {primitive primitive' : Primitive α}
    {sources sources' : List PortId} {kind kind' : Kind} {b b' : BlockId} {blk blk' : Block α}
    (h : f.Produces q primitive sources kind b blk)
    (h' : f.Produces q primitive' sources' kind' b' blk') :
    b = b' ∧ primitive = primitive' ∧ sources = sources' := by
  have hport := h.port
  rw [h'.port] at hport
  cases hport
  have hblk := h.block
  rw [h'.block] at hblk
  cases hblk
  have hunique : Relator.RightUnique fun input source => f.producer? input = some source := by
    intro input source source' hs hs'
    rw [hs] at hs'
    exact Option.some.inj hs'
  exact ⟨rfl, h.primitive.symm.trans h'.primitive, hunique.forall₂ h.fed h'.fed⟩

theorem Makes.extend {f g : Fragment α} {q : PortId} {primitive : Primitive α}
    {sources : List PortId} {kind : Kind} (h : f.Makes q primitive sources kind)
    (hg : f.Extends g) : g.Makes q primitive sources kind := by
  obtain ⟨b, blk, hproduces⟩ := h
  exact ⟨b, blk, hproduces.extend hg⟩

section Added

variable {f g : Fragment α} {primitive : Primitive α} {sources : List PortId}
  {kinds : List Kind} {kind : Kind} {q : PortId}

theorem Added.extends (h : Added f g primitive sources kinds kind q) : f.Extends g := by
  rw [h.result]
  exact withBlock_extends.trans (withWires_extends _ _)

theorem Added.signals (h : Added f g primitive sources kinds kind q) : g.signals = f.signals := by
  rw [h.result]
  rfl

theorem Added.length_eq (h : Added f g primitive sources kinds kind q) :
    sources.length = kinds.length :=
  (mapM_ok_iff_forall₂.mp h.sourceKinds).length_eq

/-- The new block. -/
theorem Added.block (h : Added f g primitive sources kinds kind q) :
    g.blocks[f.blocks.length]? =
      some ⟨primitive, List.range' f.ports.length sources.length, some q⟩ := by
  rw [h.result, h.port, h.length_eq]
  exact withBlock_block

/-- The blocks of the larger fragment are the old ones and the new one. -/
theorem Added.block_cases (h : Added f g primitive sources kinds kind q) {b : BlockId}
    {blk : Block α} (hb : g.blocks[b]? = some blk) :
    f.blocks[b]? = some blk ∨ b = f.blocks.length ∧
      blk = ⟨primitive, List.range' f.ports.length sources.length, some q⟩ := by
  rw [h.result] at hb
  rw [h.port, h.length_eq]
  exact withBlock_block_cases hb

/-- The output port of the new block. -/
theorem Added.output (h : Added f g primitive sources kinds kind q) :
    g.ports[q]? = some ⟨f.blocks.length, .output, kind, 0⟩ := by
  rw [h.result, h.port, h.length_eq]
  show (f.withBlock primitive kinds (some kind)).ports[f.ports.length + kinds.length]? = _
  exact withBlock_output

/-- The new block is fed by its sources. -/
theorem Added.fed (h : Added f g primitive sources kinds kind q) :
    List.Forall₂ (fun input source => g.producer? input = some source)
      (List.range' f.ports.length sources.length) sources := by
  rw [List.forall₂_iff_get]
  refine ⟨by simp, ?_⟩
  intro i hi hi'
  rw [h.valid.producer?_eq_some_iff, h.result]
  refine List.mem_append_right _ (List.mem_map.mpr ⟨(sources[i], f.ports.length + i), ?_, ?_⟩)
  · refine List.mem_iff_getElem.mpr ⟨i, by simpa using hi', ?_⟩
    simp
  · simp

/-- The output of the new block carries what it makes of its sources. -/
theorem Added.produces (h : Added f g primitive sources kinds kind q) :
    g.Produces q primitive sources kind f.blocks.length
      ⟨primitive, List.range' f.ports.length sources.length, some q⟩ :=
  ⟨h.block, rfl, rfl, h.output, h.fed⟩

theorem Added.makes (h : Added f g primitive sources kinds kind q) :
    g.Makes q primitive sources kind :=
  ⟨_, _, h.produces⟩

end Added

/-! ### Names and signals -/

/-- Naming a port changes nothing but the names. -/
theorem expose_eq_ok {f g : Fragment α} {name : String} {q : PortId} {u : Unit}
    (h : expose name q f = .ok u g) :
    (∃ port, f.ports[q]? = some port ∧ port.direction = .output) ∧ f.Extends g ∧
      g.output? name = some q ∧ (f.WellFormed → g.WellFormed) ∧
      g.blocks = f.blocks ∧ g.ports = f.ports ∧ g.connections = f.connections ∧
      g.signals = f.signals := by
  unfold expose Fragment.port at h
  cases hport : f.ports[q]? with
  | none => simp [hport] at h
  | some port =>
      by_cases hout : port.direction = .output
      · refine ⟨⟨port, rfl, hout⟩, ?_⟩
        cases hname : f.output? name with
        | some existing =>
            by_cases hsame : existing = q
            · simp only [hport, hout, hname, hsame, ne_eq, not_true_eq_false, if_false,
                if_true] at h
              cases h
              exact ⟨Extends.refl f, by rw [hname, hsame], id, rfl, rfl, rfl, rfl⟩
            · simp [hport, hout, hname, hsame] at h
        | none =>
            simp only [hport, hout, hname, ne_eq, not_true_eq_false, if_false] at h
            cases h
            have hother : ∀ {other : String}, other ≠ name →
                (f.outputs.insert name q).get? other = f.outputs.get? other :=
              fun hne => Table.get?_insert_of_ne _ _ hne
            refine ⟨⟨List.prefix_rfl, List.prefix_rfl, List.prefix_rfl, ?_⟩, ?_, ?_, rfl, rfl, rfl,
              rfl⟩
            · intro other r hr
              have hne : other ≠ name := by
                rintro rfl
                simp [hname] at hr
              exact (hother hne).trans hr
            · exact Table.get?_insert_self _ _ _
            · intro hf
              refine ⟨hf.inputs, hf.output, hf.owner, hf.arity, hf.sink, hf.wires, hf.driven, ?_⟩
              intro other r hr
              by_cases hne : other = name
              · subst hne
                have hself : some q = some r := (Table.get?_insert_self _ _ _).symm.trans hr
                obtain rfl := Option.some.inj hself
                exact ⟨port, hport, hout⟩
              · exact hf.exposed ((hother hne).symm.trans hr)
      · simp [hport, hout] at h

/-- So does recording a signal. -/
theorem register_eq_ok {f g : Fragment α} {signal : Signal} {q : PortId} {u : Unit}
    (h : register signal q f = .ok u g) :
    g = { f with signals := f.signals.register signal q } :=
  (modify_eq_ok.mp h).symm

theorem withSignals_extends (f : Fragment α) (signals : Registry) :
    f.Extends { f with signals } :=
  ⟨List.prefix_rfl, List.prefix_rfl, List.prefix_rfl, id⟩

theorem WellFormed.withSignals {f : Fragment α} (hf : f.WellFormed) (signals : Registry) :
    ({ f with signals } : Fragment α).WellFormed :=
  ⟨hf.inputs, hf.output, hf.owner, hf.arity, hf.sink, hf.wires, hf.driven, hf.exposed⟩

end SignalNet.Fragment
