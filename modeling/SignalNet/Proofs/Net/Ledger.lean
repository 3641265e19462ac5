import SignalNet.Net.Ledger
import SignalNet.Proofs.Net.Calls

/-!
# The books of a ledger stay in step

A ledger keeps what a fragment derives: the numbers of its blocks and ports,
and the producer of each input.  `Ledger.Records` says that a ledger and a
fragment hold the same network.  Each call ends alike on both, with the same
result or the same error, and leaves them recording the same network
(`Ledger.perform_agrees`); the calls are compared one part at a time with
`Agree.bind`, so that a call that stops half-way is covered by what it is
made of.

What is known of well-formed fragments is thereby known of ledgers.
`Ledger.Consistent` collects it, and `performAll_consistent` proves it after
every sequence of calls, successful or not.
-/

namespace SignalNet

open Computing

theorem Fragment.port_eq_ok {α : Type} {f : Fragment α} {q : PortId} {port : Port} :
    f.port q = .ok port ↔ f.ports[q]? = some port := by
  unfold Fragment.port
  cases f.ports[q]? with
  | none => simp
  | some found => simp

/-- Entries numbered from the given number on. -/
def Numbered.list {β : Type} (first : Nat) : List β → List (Numbered β)
  | [] => []
  | x :: rest => ⟨first, x⟩ :: list (first + 1) rest

namespace Numbered

variable {β : Type}

@[simp] theorem length_list (first : Nat) (xs : List β) :
    (list first xs).length = xs.length := by
  induction xs generalizing first with
  | nil => rfl
  | cons x rest ih => simp [list, ih]

theorem list_append (first : Nat) (xs ys : List β) :
    list first (xs ++ ys) = list first xs ++ list (first + xs.length) ys := by
  induction xs generalizing first with
  | nil => rfl
  | cons x rest ih =>
      have hsum : first + 1 + rest.length = first + (rest.length + 1) := by omega
      simp [list, ih, hsum]

/-- What stands at a position carries its number. -/
theorem getElem?_list (first : Nat) (xs : List β) (i : Nat) :
    (list first xs)[i]? = xs[i]?.map fun x => ⟨first + i, x⟩ := by
  induction xs generalizing first i with
  | nil => rfl
  | cons x rest ih =>
      cases i with
      | zero => rfl
      | succ i =>
          have hsum : first + 1 + i = first + (i + 1) := by omega
          simp [list, ih, hsum]

end Numbered

namespace Ledger

variable {α β γ : Type}

/-- The ledger and the fragment hold the same network. -/
structure Records (l : Ledger α) (f : Fragment α) : Prop where
  blocks : l.blocks = Numbered.list 0 f.blocks
  ports : l.ports = Numbered.list 0 f.ports
  connections : l.connections = f.connections
  producers : ∀ input, l.producer? input = f.producer? input
  outputs : ∀ name, l.output? name = f.output? name
  signals : l.signals = f.signals

theorem records_empty : (empty : Ledger α).Records Fragment.empty :=
  ⟨rfl, rfl, rfl, fun _ => rfl, fun _ => rfl, rfl⟩

section Queries

variable {l : Ledger α} {f : Fragment α}

theorem Records.block (h : l.Records f) : l.block = f.block := by
  funext b
  simp only [Ledger.block, Fragment.block, h.blocks, Numbered.getElem?_list]
  cases f.blocks[b]? <;> rfl

theorem Records.port (h : l.Records f) : l.port = f.port := by
  funext q
  simp only [Ledger.port, Fragment.port, h.ports, Numbered.getElem?_list]
  cases f.ports[q]? <;> rfl

theorem Records.kindOf (h : l.Records f) : l.kindOf = f.kindOf := by
  funext q
  simp only [Ledger.kindOf, Fragment.kindOf, h.port]

theorem Records.outputPort (h : l.Records f) : l.outputPort = f.outputPort := by
  funext b
  unfold Ledger.outputPort Fragment.outputPort
  cases hblock : f.block b with
  | error e => simp only [h.block, hblock]
  | ok blk => cases houtput : blk.output <;> simp only [h.block, hblock, houtput]

theorem Records.length_blocks (h : l.Records f) : l.blocks.length = f.blocks.length := by
  rw [h.blocks, Numbered.length_list]

theorem Records.length_ports (h : l.Records f) : l.ports.length = f.ports.length := by
  rw [h.ports, Numbered.length_list]

end Queries

/-! ### Calls end alike -/

/-- The same result or the same error, and the same network. -/
inductive Alike : EStateM.Result NetError (Ledger α) β →
    EStateM.Result NetError (Fragment α) β → Prop
  | ok {b : β} {l : Ledger α} {f : Fragment α} (h : l.Records f) : Alike (.ok b l) (.ok b f)
  | error {e : NetError} {l : Ledger α} {f : Fragment α} (h : l.Records f) :
      Alike (.error e l) (.error e f)

theorem Alike.records {x : EStateM.Result NetError (Ledger α) β}
    {y : EStateM.Result NetError (Fragment α) β} (h : Alike x y) :
    (finalState x).Records (finalState y) := by
  cases h with
  | ok h => exact h
  | error h => exact h

/-- On the same network the two computations end alike. -/
def Agree (x : Writing α β) (y : Wiring α β) : Prop :=
  ∀ l f, l.Records f → Alike (x l) (y f)

/-- Sequences agree if their parts do. -/
theorem Agree.bind {x : Writing α β} {y : Wiring α β} {g : β → Writing α γ} {k : β → Wiring α γ}
    (hxy : Agree x y) (hgk : ∀ b, Agree (g b) (k b)) : Agree (x >>= g) (y >>= k) := by
  intro l f h
  have hfirst := hxy l f h
  generalize hx : x l = r at hfirst
  generalize hy : y f = s at hfirst
  cases hfirst with
  | ok hrecords =>
      rw [bind_of_ok hx, bind_of_ok hy]
      exact hgk _ _ _ hrecords
  | error hrecords =>
      rw [bind_of_error hx, bind_of_error hy]
      exact .error hrecords

theorem Agree.pure (b : β) : Agree (Pure.pure b : Writing α β) (Pure.pure b : Wiring α β) :=
  fun _ _ h => .ok h

theorem Agree.discard {x : Writing α β} {y : Wiring α β} (h : Agree x y) :
    Agree (Functor.discard x) (Functor.discard y) :=
  h.bind fun _ => Agree.pure _

/-- Computations that begin by looking at their state agree if they do on
every network that both hold. -/
theorem Agree.get_bind {g : Ledger α → Writing α β} {k : Fragment α → Wiring α β}
    (h : ∀ l f, l.Records f → Alike (g l l) (k f f)) :
    Agree (get >>= g) (get >>= k) :=
  fun l f hrecords => h l f hrecords

theorem Agree.ofExcept (x : Except NetError β) :
    Agree (Writing.ofExcept x : Writing α β) (Wiring.ofExcept x) := by
  cases x with
  | ok b => exact fun _ _ h => .ok h
  | error e => exact fun _ _ h => .error h

/-- The ledger with more ports, under the numbers from the next one on. -/
def withPorts (l : Ledger α) (ports : List Port) : Ledger α :=
  { l with ports := l.ports ++ Numbered.list l.ports.length ports }

theorem withPorts_append (l : Ledger α) (ports more : List Port) :
    (l.withPorts ports).withPorts more = l.withPorts (ports ++ more) := by
  simp [withPorts, Numbered.list_append]

theorem addPorts_apply (ports : List Port) (l : Ledger α) :
    addPorts ports l =
      .ok (List.range' l.ports.length ports.length) (l.withPorts ports) := by
  induction ports generalizing l with
  | nil =>
      show EStateM.Result.ok [] l = _
      simp [withPorts, Numbered.list]
  | cons port rest ih =>
      have hport : addPort port l = .ok l.ports.length (l.withPorts [port]) := rfl
      rw [addPorts, bind_of_ok hport, bind_of_ok (ih _), withPorts_append]
      show EStateM.Result.ok _ _ = _
      simp [withPorts, Numbered.list, List.range'_succ]

theorem addOutput_apply (id : BlockId) (output : Option Kind) (l : Ledger α) :
    addOutput id output l = .ok (output.map fun _ => l.ports.length)
      (l.withPorts (output.map fun kind => (⟨id, .output, kind, 0⟩ : Port)).toList) := by
  cases output with
  | none =>
      show EStateM.Result.ok none l = _
      simp [withPorts, Numbered.list]
  | some kind => rfl

/-- A block that passes the checks is entered under the next number, behind
its ports. -/
theorem addBlock_apply {primitive : Primitive α} {inputs : List Kind} {output : Option Kind}
    (l : Ledger α) (harity : ¬ primitive.arity?.any (· ≠ inputs.length))
    (hsink : ¬ primitive.isSink ≠ output.isNone) :
    addBlock primitive inputs output l = .ok l.blocks.length {
      l.withPorts (Fragment.inputPorts l.blocks.length inputs ++
        (output.map fun kind => (⟨l.blocks.length, .output, kind, 0⟩ : Port)).toList) with
      blocks := l.blocks ++ [⟨l.blocks.length, primitive,
        List.range' l.ports.length inputs.length,
        output.map fun _ => l.ports.length + inputs.length⟩] } := by
  have hinputs : (Fragment.inputPorts l.blocks.length inputs).length = inputs.length := by
    simp [Fragment.inputPorts]
  unfold addBlock
  rw [if_neg harity, if_neg hsink, get_bind, bind_of_ok (addPorts_apply _ _),
    bind_of_ok (addOutput_apply _ _ _), withPorts_append]
  show EStateM.Result.ok _ _ = _
  simp [withPorts, hinputs]

theorem addBlock_agrees (primitive : Primitive α) (inputs : List Kind) (output : Option Kind) :
    Agree (addBlock primitive inputs output) (Fragment.addBlock primitive inputs output) := by
  intro l f h
  by_cases harity : primitive.arity?.any (· ≠ inputs.length) = true
  · unfold addBlock Fragment.addBlock
    rw [if_pos harity, if_pos harity]
    exact .error h
  · by_cases hsink : primitive.isSink ≠ output.isNone
    · unfold addBlock Fragment.addBlock
      rw [if_neg harity, if_neg harity, if_pos hsink, if_pos hsink]
      exact .error h
    · rw [addBlock_apply l harity hsink]
      unfold Fragment.addBlock
      rw [if_neg harity, if_neg hsink, h.length_blocks, h.length_ports]
      refine .ok ⟨?_, ?_, h.connections, h.producers, h.outputs, h.signals⟩
      · simp [h.blocks, Numbered.list_append, Numbered.list]
      · simp [withPorts, h.ports, Numbered.list_append]

/-- A wire in both books: the table answers what the search among the wires
does. -/
theorem Records.producers_wire {l : Ledger α} {f : Fragment α} (h : l.Records f)
    {source target : PortId} (hfree : f.producer? target = none) (input : PortId) :
    (l.producers.insert target source).get? input =
      (f.withWires [⟨source, target⟩]).producer? input := by
  have hold := h.producers input
  unfold Fragment.producer? Fragment.withWires at *
  rw [List.find?_append]
  by_cases hinput : input = target
  · subst hinput
    rw [Table.get?_insert_self, Option.map_eq_none_iff.mp hfree]
    simp
  · rw [Table.get?_insert_of_ne _ _ hinput]
    have hne : ¬ target = input := fun heq => hinput heq.symm
    simp [hne, ← hold, Ledger.producer?]

theorem connect_agrees (source target : PortId) :
    Agree (connect source target : Writing α Unit) (Fragment.connect source target) := by
  intro l f h
  unfold connect Fragment.connect
  rw [h.port]
  cases hs : f.port source with
  | error e => exact .error h
  | ok s =>
      cases ht : f.port target with
      | error e => exact .error h
      | ok t =>
          by_cases hdirection : s.direction ≠ .output ∨ t.direction ≠ .input
          · simp only [if_pos hdirection]
            exact .error h
          · by_cases hkind : s.kind ≠ t.kind
            · simp only [if_neg hdirection, if_pos hkind]
              exact .error h
            · simp only [if_neg hdirection, if_neg hkind, h.producers]
              cases hproducer : f.producer? target with
              | some existing => exact .error h
              | none =>
                  refine .ok ⟨h.blocks, h.ports, by rw [h.connections], ?_, h.outputs, h.signals⟩
                  exact h.producers_wire hproducer

theorem connectAll_agrees (pairs : List (PortId × PortId)) :
    Agree (connectAll pairs : Writing α Unit) (Fragment.connectAll pairs) := by
  induction pairs with
  | nil => exact Agree.pure ()
  | cons pair rest ih => exact (connect_agrees pair.1 pair.2).bind fun _ => ih

theorem addSource_agrees (primitive : Primitive α) (kind : Kind) :
    Agree (addSource primitive kind) (Fragment.addSource primitive kind) := by
  refine (addBlock_agrees primitive [] (some kind)).bind fun id => Agree.get_bind ?_
  intro l f h
  rw [h.outputPort]
  exact Agree.ofExcept _ l f h

theorem addWired_agrees (primitive : Primitive α) (inputs : List PortId) (output : Kind) :
    Agree (addWired primitive inputs output) (Fragment.addWired primitive inputs output) := by
  refine Agree.get_bind ?_
  intro l f h
  rw [h.kindOf]
  refine (Agree.ofExcept _).bind (fun kinds => ?_) l f h
  refine (addBlock_agrees primitive kinds (some output)).bind fun id => Agree.get_bind ?_
  intro l f h
  rw [h.block]
  refine (Agree.ofExcept _).bind (fun b => ?_) l f h
  refine (connectAll_agrees (inputs.zip b.inputs)).bind fun _ => Agree.get_bind ?_
  intro l f h
  rw [h.outputPort]
  exact Agree.ofExcept _ l f h

/-- A name in the ledger's table, compared with a table that has it too. -/
theorem Records.outputs_insert {l : Ledger α} {f : Fragment α} (h : l.Records f) {name : String}
    {q : PortId} {outputs : Table String PortId} (hname : outputs.get? name = some q)
    (hother : ∀ {other : String}, other ≠ name → outputs.get? other = f.output? other)
    (other : String) : (l.outputs.insert name q).get? other = outputs.get? other := by
  by_cases hne : other = name
  · rw [hne, Table.get?_insert_self, hname]
  · rw [Table.get?_insert_of_ne _ _ hne, hother hne]
    exact h.outputs other

/-- A name that stands for the port already is written once more, and stands
for it as before. -/
theorem expose_agrees (name : String) (q : PortId) :
    Agree (expose name q : Writing α Unit) (Fragment.expose name q) := by
  intro l f h
  unfold expose Fragment.expose
  rw [h.port, h.outputs]
  cases hq : f.port q with
  | error e => exact .error h
  | ok port =>
      by_cases hout : port.direction ≠ .output
      · simp only [if_pos hout]
        exact .error h
      · simp only [if_neg hout]
        cases hname : f.output? name with
        | none =>
            exact .ok ⟨h.blocks, h.ports, h.connections, h.producers,
              h.outputs_insert (Table.get?_insert_self _ _ _)
                fun hne => Table.get?_insert_of_ne _ _ hne, h.signals⟩
        | some existing =>
            by_cases hsame : existing = q
            · simp only [if_neg (not_not_intro hsame), if_pos hsame]
              exact .ok ⟨h.blocks, h.ports, h.connections, h.producers,
                h.outputs_insert (hname.trans (congrArg some hsame)) fun _ => rfl, h.signals⟩
            · simp only [ne_eq, hsame, not_false_eq_true, if_true]
              exact .error h

theorem register_agrees (signal : Signal) (q : PortId) :
    Agree (register signal q : Writing α Unit) (Fragment.register signal q) :=
  fun _ _ h => .ok ⟨h.blocks, h.ports, h.connections, h.producers, h.outputs,
    congrArg (·.register signal q) h.signals⟩

/-- Make a call on a ledger and forget its result. -/
def perform : Fragment.Call α → Writing α Unit
  | .addBlock primitive inputs output => discard (addBlock primitive inputs output)
  | .addSource primitive kind => discard (addSource primitive kind)
  | .addWired primitive inputs output => discard (addWired primitive inputs output)
  | .connect source target => connect source target
  | .expose name port => expose name port
  | .register signal port => register signal port

/-- Every call ends alike on a ledger and on the fragment that it records. -/
theorem perform_agrees (c : Fragment.Call α) : Agree (perform c) c.run := by
  cases c with
  | addBlock primitive inputs output => exact (addBlock_agrees primitive inputs output).discard
  | addSource primitive kind => exact (addSource_agrees primitive kind).discard
  | addWired primitive inputs output => exact (addWired_agrees primitive inputs output).discard
  | connect source target => exact connect_agrees source target
  | expose name q => exact expose_agrees name q
  | register signal q => exact register_agrees signal q

/-- The ledger after a sequence of calls, successful or not. -/
def performAll (calls : List (Fragment.Call α)) (l : Ledger α) : Ledger α :=
  calls.foldl (fun l c => finalState (perform c l)) l

theorem performAll_records (calls : List (Fragment.Call α)) {l : Ledger α} {f : Fragment α}
    (h : l.Records f) : (performAll calls l).Records (Fragment.performAll calls f) := by
  induction calls generalizing l f with
  | nil => exact h
  | cons c rest ih => exact ih (perform_agrees c l f h).records

/-! ### What the books say -/

/-- A block names a port as its input at a position. -/
def Lists (l : Ledger α) (b : BlockId) (i : Nat) (q : PortId) : Prop :=
  ∃ blk, l.block b = .ok blk ∧ blk.inputs[i]? = some q

/-- The books of a ledger say the same. -/
structure Consistent (l : Ledger α) : Prop where
  blockNumber : ∀ {i : Nat} {entry : Numbered (Block α)}, l.blocks[i]? = some entry → entry.id = i
  portNumber : ∀ {i : Nat} {entry : Numbered Port}, l.ports[i]? = some entry → entry.id = i
  /-- An input port is listed once, by its owner at its slot. -/
  input : ∀ {q : PortId} {port : Port}, l.port q = .ok port → port.direction = .input →
    ∀ {b : BlockId} {i : Nat}, l.Lists b i q ↔ b = port.block ∧ i = port.slot
  /-- What a block lists is an input port of its own. -/
  listed : ∀ {b : BlockId} {i : Nat} {q : PortId}, l.Lists b i q →
    ∃ kind, l.port q = .ok ⟨b, .input, kind, i⟩
  /-- An output port is the output of its owner, and of no other block. -/
  output : ∀ {q : PortId} {port : Port}, l.port q = .ok port → port.direction = .output →
    ∀ {b : BlockId}, l.outputPort b = .ok q ↔ b = port.block
  /-- The output of a block is an output port of its own. -/
  owned : ∀ {b : BlockId} {q : PortId}, l.outputPort b = .ok q →
    ∃ kind, l.port q = .ok ⟨b, .output, kind, 0⟩
  arity : ∀ {b : BlockId} {blk : Block α}, l.block b = .ok blk →
    ∀ n, blk.primitive.arity? = some n → blk.inputs.length = n
  sink : ∀ {b : BlockId} {blk : Block α}, l.block b = .ok blk →
    (blk.output = none ↔ blk.primitive.isSink = true)
  wires : ∀ c ∈ l.connections, ∃ s t, l.port c.source = .ok s ∧ l.port c.target = .ok t ∧
    s.direction = .output ∧ t.direction = .input ∧ s.kind = t.kind
  driven : (l.connections.map (·.target)).Nodup
  /-- The table of producers holds the wires and nothing else. -/
  producers : ∀ {source target : PortId},
    l.producers.get? target = some source ↔ ⟨source, target⟩ ∈ l.connections
  exposed : ∀ {name : String} {q : PortId}, l.output? name = some q →
    ∃ port, l.port q = .ok port ∧ port.direction = .output

/-- A ledger that records a well-formed fragment is consistent. -/
theorem Records.consistent {l : Ledger α} {f : Fragment α} (h : l.Records f)
    (hf : f.WellFormed) : l.Consistent where
  blockNumber := by
    intro i entry hentry
    rw [h.blocks, Numbered.getElem?_list] at hentry
    obtain ⟨blk, -, rfl⟩ := Option.map_eq_some_iff.mp hentry
    exact Nat.zero_add i
  portNumber := by
    intro i entry hentry
    rw [h.ports, Numbered.getElem?_list] at hentry
    obtain ⟨port, -, rfl⟩ := Option.map_eq_some_iff.mp hentry
    exact Nat.zero_add i
  input := by
    intro q port hport hin b i
    rw [h.port, Fragment.port_eq_ok] at hport
    simp only [Lists, h.block, Fragment.block_eq_ok]
    constructor
    · rintro ⟨blk, hblk, hq⟩
      obtain ⟨kind, hentry⟩ := hf.inputs hblk hq
      rw [hport] at hentry
      cases hentry
      exact ⟨rfl, rfl⟩
    · rintro ⟨rfl, rfl⟩
      obtain ⟨blk, hblk, hinput, -⟩ := hf.owner hport
      exact ⟨blk, hblk, hinput hin⟩
  listed := by
    simp only [Lists, h.block, h.port, Fragment.block_eq_ok, Fragment.port_eq_ok]
    rintro b i q ⟨blk, hblk, hq⟩
    exact hf.inputs hblk hq
  output := by
    intro q port hport hout b
    rw [h.port, Fragment.port_eq_ok] at hport
    rw [h.outputPort, Fragment.outputPort_eq_ok]
    constructor
    · rintro ⟨blk, hblk, hq⟩
      obtain ⟨kind, hentry⟩ := hf.output hblk hq
      rw [hport] at hentry
      cases hentry
      rfl
    · rintro rfl
      obtain ⟨blk, hblk, -, houtput⟩ := hf.owner hport
      exact ⟨blk, hblk, houtput hout⟩
  owned := by
    simp only [h.outputPort, h.port, Fragment.outputPort_eq_ok, Fragment.port_eq_ok]
    rintro b q ⟨blk, hblk, hq⟩
    exact hf.output hblk hq
  arity := by
    simp only [h.block, Fragment.block_eq_ok]
    exact hf.arity
  sink := by
    simp only [h.block, Fragment.block_eq_ok]
    intro b blk hblk
    rw [hf.sink hblk, Option.isNone_iff_eq_none]
  wires := by
    simp only [h.connections, h.port, Fragment.port_eq_ok]
    exact hf.wires
  driven := by
    rw [h.connections]
    exact hf.driven
  producers := by
    intro source target
    rw [h.connections, ← hf.producer?_eq_some_iff, ← h.producers]
    rfl
  exposed := by
    simp only [h.outputs, h.port, Fragment.port_eq_ok]
    exact hf.exposed

/-- **The books stay in step.**  After every sequence of calls on an empty
ledger, successful or failing, its books are consistent, and they record the
fragment that the same calls make. -/
theorem performAll_consistent (calls : List (Fragment.Call α)) :
    (performAll calls empty).Consistent ∧
      (performAll calls empty).Records (Fragment.performAll calls Fragment.empty) := by
  have hrecords := performAll_records calls records_empty
  have hwell : (Fragment.performAll calls (Fragment.empty : Fragment α)).WellFormed :=
    Fragment.performAll_wellFormed calls Fragment.wellFormed_empty
  exact ⟨hrecords.consistent hwell, hrecords⟩

-- The second wire of the last block starts at an input; the first one stays, in both books.
example :
    let l : Ledger Nat := performAll [.addSource (.constant (.boolean true)) .boolean,
      .addWired .allOf [0] .boolean, .addWired .allOf [0, 1] .boolean] empty
    l.blocks.length = 3 ∧ l.connections = [⟨0, 1⟩, ⟨0, 3⟩] ∧ l.producer? 3 = some 0 ∧
      l.producer? 4 = none := by
  decide

end Ledger

end SignalNet
