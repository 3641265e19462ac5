import SignalNet.Compile.Command
import SignalNet.Net.Reaction
import SignalNet.Proofs.Net.Calls
import SignalNet.Proofs.Net.Order
import SignalNet.Proofs.Pool.Construction

/-!
# How lowering proceeds

With the rules of the library, lowering a node has five outcomes
(`Session.LoweredBy`): the block of a constant, for literals and parameters; a
product of motions, for relations; a block that waits, for placeholders; and
for all other forms one block of the form's own primitive
(`Form.primitive?`) on the ports of the operands.

Lowering an expression repeats this step for the nodes below it, operands
first.  `Session.lowerWithin_induct` is the induction: what every single step
keeps, lowering an expression keeps, and it enters the expression and nothing
that stands behind it.

What has been done when an action or a command is lowered is said once, step by
step: by `Session.lowerAction_basic_eq_ok` and `Session.lowerAction_wrapped_eq_ok`
for actions, and for the stages of a command by `Session.lowerCancelInput_eq_ok`
and `Session.lowerCancellation_eq_ok`.  So is that a state which is entered and
left becomes a latch (`Session.lowerState_explicit`).
-/

namespace SignalNet

/-- The primitive that a form becomes.  Constants and parameters share
blocks, relations become several blocks, and placeholders and custom forms
have no meaning of their own. -/
def Form.primitive? {α : Type} (parameters : Parameters α) : Form α → Option (Primitive α)
  | .sensor name device => some (.sensor name device)
  | .input name => some (.input name)
  | .clock signal => some (.clock signal)
  | .persisted handle => (parameters.slot? handle).map .load
  | .unary op _ => some (.unary op)
  | .binary op _ _ => some (.binary op)
  | .compare op _ _ => some (.compare op)
  | .select _ _ _ => some .select
  | .limit _ _ _ => some .limit
  | .smooth _ tau => some (.smooth tau)
  | .rateLimit _ rate => some (.rateLimit rate)
  | .pre _ initial => some (.pre initial)
  | .edge _ rising => some (.edge rising)
  | .pack _ => some .pack
  | .index _ position => some (.index position)
  | .compose c _ => some (.compose c)
  | .constant _ | .parameter _ | .relation _ _ | .placeholder _ _ | .custom _ => none

/-- The primitive of an operator without state reacts with the value of the
operator. -/
theorem Form.react_eq {α : Type} [Scalar α] {form : Form α} (hcomposite : form.isComposite = true)
    (hstate : form.isStateful = false) {parameters : Parameters α} {primitive : Primitive α}
    (hprimitive : form.primitive? parameters = some primitive) (around : Surroundings α)
    (kind : Kind) (memory : Option (Memory α)) (args : List (Value α)) :
    primitive.react around kind memory args = (orRejected (form.eval? args)).map (·, none) := by
  cases form with
  | unary op x =>
      cases hprimitive
      match args with
      | [] | [_] | _ :: _ :: _ => rfl
  | binary op x y =>
      cases hprimitive
      match args with
      | [] | [_] | [_, _] | _ :: _ :: _ :: _ => rfl
  | compare op x y =>
      cases hprimitive
      match args with
      | [] | [_] | [_, _] | _ :: _ :: _ :: _ => rfl
  | select c t f =>
      cases hprimitive
      match args with
      | [] | [_] | [_, _] | [_, _, _] | _ :: _ :: _ :: _ :: _ => rfl
  | limit x lo hi =>
      cases hprimitive
      match args with
      | [] | [_] | [_, _] | [_, _, _] | _ :: _ :: _ :: _ :: _ => rfl
  | index x position =>
      cases hprimitive
      match args with
      | [] | [_] | _ :: _ :: _ => rfl
  | pack parts =>
      cases hprimitive
      simp only [Primitive.react, eval?]
  | compose c parts =>
      cases hprimitive
      simp only [Primitive.react, eval?]
  | smooth x tau => cases hstate
  | rateLimit x rate => cases hstate
  | pre x initial => cases hstate
  | edge x rising => cases hstate
  | _ => first | cases hcomposite | cases hprimitive

/-- The rule that is found is the one for the key that is found. -/
theorem Rules.get?_of_lookup? {α : Type} {rules : Rules α} {keys : List String} {key : String}
    {rule : Rule α} (h : rules.lookup? keys = some (key, rule)) :
    key ∈ keys ∧ Table.get? rules key = some rule := by
  obtain ⟨k, hmem, hk⟩ := List.exists_of_findSome?_eq_some h
  obtain ⟨r, hr, heq⟩ := Option.map_eq_some_iff.mp hk
  cases heq
  exact ⟨hmem, hr⟩

/-- With the rules of the library, a node that has a rule is lowered the
library's way. -/
theorem Rules.lookup?_standard {α : Type} {keys : List String} {key : String} {rule : Rule α}
    (h : Rules.lookup? Rules.standard keys = some (key, rule)) : rule = .standard := by
  have hinsert : ∀ (names : List String) (t : Rules α),
      (∀ {k : String} {r : Rule α}, Table.get? t k = some r → r = .standard) →
      ∀ {k : String} {r : Rule α},
        Table.get? (names.foldl (fun rules name => Table.insert rules name .standard) t) k =
          some r → r = .standard := by
    intro names
    induction names with
    | nil => exact fun t ht => ht
    | cons name rest ih =>
        intro t ht
        apply ih
        intro k r hr
        rcases Table.get?_insert_cases hr with ⟨-, rfl⟩ | hold
        · rfl
        · exact ht hold
  exact hinsert Rules.standardKeys .empty (fun hr => by simp at hr) (get?_of_lookup? h).2

/-- The expressions of `P` are lowered the library's way if they are lowered
at all. -/
def Program.Standard {α : Type} (program : Program α) (P : ExprId → Prop) : Prop :=
  ∀ id n key rule, P id → program.pool.get? id = some n →
    Rules.lookup? program.rules n.form.keys = some (key, rule) → rule = .standard

theorem Program.Standard.of_rules {α : Type} {program : Program α} {P : ExprId → Prop}
    (h : program.rules = .standard) : program.Standard P := by
  intro id n key rule _ _ hrule
  rw [h] at hrule
  exact Rules.lookup?_standard hrule

/-! ### Ports of actions -/

namespace ActionPorts

/-- A property goes on from an action to the actions inside it. -/
def GoesInside (Q : ActionPorts → Prop) : Prop :=
  ∀ {name : String} {outputs : Table String PortId} {signals : Registry}
    {inner : List ActionPorts}, Q (.mk name outputs signals inner) → ∀ ports ∈ inner, Q ports

variable {Q : ActionPorts → Prop}

mutual

/-- Such a property of an action is one of every action that is found in it. -/
theorem GoesInside.find? (hQ : GoesInside Q) (name : String) : ∀ (ports : ActionPorts)
    {found : ActionPorts}, Q ports → ports.find? name = some found → Q found
  | .mk own outputs signals inner, found, h, hfind => by
      rw [ActionPorts.find?] at hfind
      by_cases hname : own = name
      · rw [if_pos hname] at hfind
        cases hfind
        exact h
      · rw [if_neg hname] at hfind
        exact GoesInside.findAmong? hQ name inner (hQ h) hfind

theorem GoesInside.findAmong? (hQ : GoesInside Q) (name : String) : ∀ (list : List ActionPorts)
    {found : ActionPorts}, (∀ ports ∈ list, Q ports) → findAmong? name list = some found → Q found
  | [], _, _, hfind => by
      rw [ActionPorts.findAmong?] at hfind
      cases hfind
  | ports :: rest, found, h, hfind => by
      rw [ActionPorts.findAmong?] at hfind
      cases hfirst : ports.find? name with
      | some first =>
          rw [hfirst] at hfind
          cases hfind
          exact GoesInside.find? hQ name ports (h ports (by simp)) hfirst
      | none =>
          rw [hfirst] at hfind
          exact GoesInside.findAmong? hQ name rest (fun p hp => h p (by simp [hp])) hfind

end

end ActionPorts

namespace Session

open Computing Lowering

variable {α : Type}

/-! ### Single calls -/

theorem ofExpr_eq_ok {β : Type} {x : Except (ExprError α) β} {b : β} {s s' : Session α} :
    ofExpr x s = .ok b s' ↔ x = .ok b ∧ s = s' := by
  cases x with
  | ok c => simp [ofExpr]
  | error e => simp [ofExpr]

theorem ofNet_eq_ok {β : Type} {x : Except NetError β} {b : β} {s s' : Session α} :
    ofNet x s = .ok b s' ↔ x = .ok b ∧ s = s' := by
  cases x with
  | ok c => simp [ofNet]
  | error e => simp [ofNet]

theorem wire_eq_ok {β : Type} {call : Wiring α β} {b : β} {s s' : Session α} :
    wire call s = .ok b s' ↔ ∃ f, call s.fragment = .ok b f ∧ s' = { s with fragment := f } := by
  unfold wire
  cases call s.fragment with
  | ok c f =>
      constructor
      · intro h
        cases h
        exact ⟨f, rfl, rfl⟩
      · rintro ⟨_, heq, rfl⟩
        cases heq
        rfl
  | error e f => simp

/-- Adding a block adds it to the fragment and changes nothing else. -/
theorem add_added {s s' : Session α} (hf : s.fragment.WellFormed) {primitive : Primitive α}
    {inputs : List PortId} {kind : Kind} {q : PortId}
    (h : add primitive inputs kind s = .ok q s') :
    ∃ f kinds, Fragment.Added s.fragment f primitive inputs kinds kind q ∧
      s' = { s with fragment := f } := by
  unfold add at h
  by_cases hempty : inputs.isEmpty = true
  · obtain rfl := List.isEmpty_iff.mp hempty
    rw [if_pos hempty] at h
    obtain ⟨f, hcall, rfl⟩ := wire_eq_ok.mp h
    exact ⟨f, [], Fragment.addSource_added hf hcall, rfl⟩
  · rw [if_neg hempty] at h
    obtain ⟨f, hcall, rfl⟩ := wire_eq_ok.mp h
    obtain ⟨kinds, hadded⟩ := Fragment.addWired_added hf hcall
    exact ⟨f, kinds, hadded, rfl⟩

/-- Opening a placeholder adds a block that passes a value on. -/
theorem openPlaceholder_eq_ok {p : Pool α} {s s' : Session α} {id : ExprId} {n : Node α}
    {number : Nat} {label : String} {q : PortId} (hn : p.get? id = some n) (hform : n.form = .placeholder number label)
    (hrun : openPlaceholder p id s = .ok q s') :
    Fragment.Fits (.identity : Primitive α) [n.kind] (some n.kind) ∧
      q = s.fragment.ports.length + 1 ∧
      s' = { s with
        fragment := s.fragment.withBlock .identity [n.kind] (some n.kind)
        placeholders := s.placeholders ++
          [⟨id, number, label, n.kind, s.fragment.ports.length, false⟩] } := by
  obtain ⟨m, _, hlookup, hafter⟩ := bind_eq_ok.mp hrun
  obtain ⟨hm, rfl⟩ := ofExpr_eq_ok.mp hlookup
  rw [Pool.node_eq_ok, hn] at hm
  cases hm
  simp only [hform] at hafter
  obtain ⟨b, s₁, hwire, hafter⟩ := bind_eq_ok.mp hafter
  obtain ⟨f, hadd, rfl⟩ := wire_eq_ok.mp hwire
  obtain ⟨hfits, rfl, rfl⟩ := Fragment.addBlock_eq_ok.mp hadd
  obtain ⟨_, _, hget, hafter⟩ := bind_eq_ok.mp hafter
  obtain ⟨rfl, rfl⟩ := get_eq_ok.mp hget
  obtain ⟨blk, _, hblock, hafter⟩ := bind_eq_ok.mp hafter
  obtain ⟨hblk, rfl⟩ := ofNet_eq_ok.mp hblock
  obtain ⟨_, _, hget₂, hafter⟩ := bind_eq_ok.mp hafter
  obtain ⟨rfl, rfl⟩ := get_eq_ok.mp hget₂
  obtain ⟨output, _, hout, hafter⟩ := bind_eq_ok.mp hafter
  obtain ⟨hport, rfl⟩ := ofNet_eq_ok.mp hout
  obtain ⟨_, s₂, hmodify, hafter⟩ := bind_eq_ok.mp hafter
  obtain rfl := modify_eq_ok.mp hmodify
  obtain ⟨rfl, rfl⟩ := pure_eq_ok.mp hafter
  rw [Fragment.block_eq_ok, Fragment.withBlock_block] at hblk
  cases hblk
  have hwired : ((s.fragment.withBlock .identity [n.kind] (some n.kind)).withWires []).outputPort
      s.fragment.blocks.length = .ok output := by
    simpa [Fragment.withWires] using hport
  exact ⟨hfits, Fragment.outputPort_withBlock hwired, rfl⟩

/-- Resolving a placeholder marks it and wires its input. -/
theorem resolve_eq_ok {s s' : Session α} {number : Nat} {port : PortId} {u : Unit}
    (hrun : Session.resolve number port s = .ok u s') :
    ∃ p, (s.placeholders.find? fun p => decide (p.number = number)) = some p ∧
      (∃ source target, s.fragment.ports[port]? = some source ∧
        s.fragment.ports[p.input]? = some target ∧ source.direction = .output ∧
        target.direction = .input ∧ source.kind = target.kind) ∧
      s.fragment.producer? p.input = none ∧
      s' = { s with
        fragment := s.fragment.withWires [⟨port, p.input⟩]
        placeholders := markResolved number s.placeholders } := by
  obtain ⟨_, _, hget, hafter⟩ := bind_eq_ok.mp hrun
  obtain ⟨rfl, rfl⟩ := get_eq_ok.mp hget
  cases hfind : s.placeholders.find? fun p => decide (p.number = number) with
  | none =>
      simp only [hfind] at hafter
      exact absurd hafter throw_ne_ok
  | some p =>
      simp only [hfind] at hafter
      by_cases hresolved : p.resolved = true
      · rw [if_pos hresolved] at hafter
        exact absurd hafter throw_ne_ok
      · rw [if_neg hresolved] at hafter
        obtain ⟨_, s₁, hmodify, hwire⟩ := bind_eq_ok.mp hafter
        obtain rfl := modify_eq_ok.mp hmodify
        obtain ⟨f, hconnect, rfl⟩ := wire_eq_ok.mp hwire
        obtain ⟨hports, hfree, rfl⟩ := Fragment.connect_eq_ok.mp hconnect
        exact ⟨p, rfl, hports, hfree, rfl⟩

variable [Scalar α]

/-- The second session has lowered all that the first one has, to the same
ports. -/
structure Extends (s s' : Session α) : Prop where
  fragment : s.fragment.Extends s'.fragment
  lowered : ∀ {id : ExprId} {q : PortId}, s.lowered.get? id = some q → s'.lowered.get? id = some q
  constants : ∀ {v : Value α} {q : PortId}, s.constants.get? v = some q →
    s'.constants.get? v = some q

theorem Extends.refl (s : Session α) : s.Extends s :=
  ⟨Fragment.Extends.refl _, id, id⟩

theorem Extends.trans {s₁ s₂ s₃ : Session α} (h₁ : s₁.Extends s₂) (h₂ : s₂.Extends s₃) :
    s₁.Extends s₃ :=
  ⟨h₁.fragment.trans h₂.fragment, fun h => h₂.lowered (h₁.lowered h),
    fun h => h₂.constants (h₁.constants h)⟩

/-- A fragment that has grown makes a session that has grown. -/
theorem extends_withFragment {s : Session α} {f : Fragment α} (h : s.fragment.Extends f) :
    s.Extends { s with fragment := f } :=
  ⟨h, id, id⟩

omit [Scalar α] in
/-- The block of a constant can always be added. -/
theorem addSource_constant_total (v : Value α) (f : Fragment α) :
    ∃ q g, Fragment.addSource (.constant v) v.kind f = .ok q g := by
  have hfits : Fragment.Fits (.constant v) [] (some v.kind) := by
    refine ⟨?_, rfl⟩
    rintro n hn
    cases hn
    rfl
  have hport : (f.withBlock (.constant v) [] (some v.kind)).outputPort f.blocks.length =
      .ok f.ports.length :=
    Fragment.outputPort_eq_ok.mpr ⟨_, Fragment.withBlock_block, rfl⟩
  exact ⟨_, _, bind_eq_ok.mpr ⟨_, _, Fragment.addBlock_eq_ok.mpr ⟨hfits, rfl, rfl⟩,
    bind_eq_ok.mpr ⟨_, _, get_eq_ok.mpr ⟨rfl, rfl⟩, Fragment.ofExcept_eq_ok.mpr ⟨hport, rfl⟩⟩⟩⟩

/-- **Every constant gets a port.** -/
theorem constPort_total (v : Value α) (s : Session α) : ∃ q s', constPort v s = .ok q s' := by
  unfold constPort
  rw [get_bind]
  cases s.constants.get? v.canonical with
  | some port => exact ⟨port, s, rfl⟩
  | none =>
      obtain ⟨q, g, hadd⟩ := addSource_constant_total v s.fragment
      exact ⟨q, _, bind_eq_ok.mpr ⟨q, _, wire_eq_ok.mpr ⟨g, hadd, rfl⟩, rfl⟩⟩

/-- A constant has a port already, or gets a new block. -/
theorem constPort_cases {s s' : Session α} (hf : s.fragment.WellFormed) {v : Value α}
    {q : PortId} (h : constPort v s = .ok q s') :
    s.constants.get? v.canonical = some q ∧ s' = s ∨
      s.constants.get? v.canonical = none ∧
        ∃ f, Fragment.Added s.fragment f (.constant v) [] [] v.kind q ∧
          s' = { s with fragment := f, constants := s.constants.insert v.canonical q } := by
  obtain ⟨_, _, hget, hafter⟩ := bind_eq_ok.mp h
  obtain ⟨rfl, rfl⟩ := get_eq_ok.mp hget
  cases hfind : s.constants.get? v.canonical with
  | some port =>
      simp only [hfind] at hafter
      obtain ⟨rfl, rfl⟩ := pure_eq_ok.mp hafter
      exact Or.inl ⟨rfl, rfl⟩
  | none =>
      simp only [hfind] at hafter
      obtain ⟨port, s₁, hwire, hafter⟩ := bind_eq_ok.mp hafter
      obtain ⟨f, hcall, rfl⟩ := wire_eq_ok.mp hwire
      obtain ⟨_, s₂, hmodify, hafter⟩ := bind_eq_ok.mp hafter
      obtain rfl := modify_eq_ok.mp hmodify
      obtain ⟨rfl, rfl⟩ := pure_eq_ok.mp hafter
      exact Or.inr ⟨rfl, f, Fragment.addSource_added hf hcall, rfl⟩

/-- The port of a constant is entered. -/
theorem constPort_entered {s s' : Session α} (hf : s.fragment.WellFormed) {v : Value α}
    {q : PortId} (h : constPort v s = .ok q s') : s'.constants.get? v.canonical = some q := by
  rcases constPort_cases hf h with ⟨hfind, rfl⟩ | ⟨-, f, -, rfl⟩
  · exact hfind
  · exact Table.get?_insert_self _ _ _

theorem constPort_extends {s s' : Session α} (hf : s.fragment.WellFormed) {v : Value α}
    {q : PortId} (h : constPort v s = .ok q s') : s.Extends s' := by
  rcases constPort_cases hf h with ⟨-, rfl⟩ | ⟨hnone, f, hadded, rfl⟩
  · exact Extends.refl _
  · refine ⟨hadded.extends, id, ?_⟩
    intro w r hw
    have hne : w ≠ v.canonical := by
      rintro rfl
      simp [hnone] at hw
    exact (Table.get?_insert_of_ne _ _ hne).trans hw

/-! ### One node -/

/-- What lowering one node comes to. -/
inductive LoweredBy (program : Program α) (id : ExprId) (n : Node α) (inputs : List PortId)
    (s : Session α) (q : PortId) (s' : Session α) : Prop
  | constant {v : Value α} (hform : n.form = .constant v) (hrun : constPort v s = .ok q s')
  | parameter {name : String} {v : Value α} (hform : n.form = .parameter name)
      (hvalue : program.parameters.value? name = some v) (hkind : v.kind = n.kind)
      (hrun : constPort v s = .ok q s')
  | relation {source target : String} (hform : n.form = .relation source target)
      (hrun : lowerRelation program.host source target s = .ok q s')
  | placeholder {number : Nat} {label : String} (hform : n.form = .placeholder number label)
      (hrun : openPlaceholder program.pool id s = .ok q s')
  | block {primitive : Primitive α} (hform : n.form.primitive? program.parameters = some primitive)
      (hrun : add primitive inputs n.kind s = .ok q s')

omit [Scalar α] in
/-- Asking for a device changes nothing. -/
theorem checkDevice_eq_ok {host : Host α} {device : Option String} {s s' : Session α} {u : Unit}
    (h : checkDevice host device s = .ok u s') : s' = s := by
  cases device with
  | none =>
      obtain ⟨-, rfl⟩ := pure_eq_ok.mp h
      rfl
  | some name =>
      simp only [checkDevice] at h
      by_cases hpresent : host.isPresent name = true
      · rw [if_pos hpresent] at h
        obtain ⟨-, rfl⟩ := pure_eq_ok.mp h
        rfl
      · rw [if_neg hpresent] at h
        exact absurd h throw_ne_ok

theorem lowerStandard_cases {program : Program α} {id : ExprId} {n : Node α}
    {inputs : List PortId} {s s' : Session α} {q : PortId}
    (h : lowerStandard program id n inputs s = .ok q s') :
    LoweredBy program id n inputs s q s' := by
  unfold lowerStandard at h
  cases hform : n.form with
  | constant v =>
      simp only [hform] at h
      exact .constant hform h
  | parameter name =>
      simp only [hform, lowerParameter] at h
      cases hvalue : program.parameters.value? name with
      | none =>
          simp only [hvalue] at h
          exact absurd h throw_ne_ok
      | some v =>
          simp only [hvalue] at h
          by_cases hkind : v.kind = n.kind
          · rw [if_pos hkind] at h
            exact .parameter hform hvalue hkind h
          · rw [if_neg hkind] at h
            exact absurd h throw_ne_ok
  | sensor name device =>
      simp only [hform] at h
      obtain ⟨_, s₁, hcheck, hadd⟩ := bind_eq_ok.mp h
      obtain rfl := checkDevice_eq_ok hcheck
      exact .block (by rw [hform]; rfl) hadd
  | relation source target =>
      simp only [hform] at h
      exact .relation hform h
  | placeholder number label =>
      simp only [hform] at h
      exact .placeholder hform h
  | persisted handle =>
      simp only [hform] at h
      cases hslot : program.parameters.slot? handle with
      | none =>
          simp only [hslot] at h
          exact absurd h throw_ne_ok
      | some slot =>
          simp only [hslot] at h
          exact .block (by rw [hform, Form.primitive?, hslot]; rfl) h
  | custom c =>
      simp only [hform] at h
      exact absurd h throw_ne_ok
  | _ =>
      simp only [hform] at h
      exact .block (by rw [hform]; rfl) h

/-- A relation becomes the product of the motions on its path. -/
theorem lowerRelation_eq_ok {host : Host α} {source target : String} {s s' : Session α}
    {q : PortId} (hrun : lowerRelation host source target s = .ok q s') :
    (host.path source target = some [] ∧ constPort (.transform .identity) s = .ok q s') ∨
      ∃ hop rest first s₁, host.path source target = some (hop :: rest) ∧
        lowerHop host hop s = .ok first s₁ ∧ lowerHops host first rest s₁ = .ok q s' := by
  unfold lowerRelation at hrun
  match hpath : host.path source target with
  | none =>
      simp only [hpath] at hrun
      exact absurd hrun throw_ne_ok
  | some [] =>
      simp only [hpath] at hrun
      exact Or.inl ⟨rfl, hrun⟩
  | some (hop :: rest) =>
      simp only [hpath] at hrun
      obtain ⟨first, s₁, hhop, hrest⟩ := bind_eq_ok.mp hrun
      exact Or.inr ⟨hop, rest, first, s₁, rfl, hhop, hrest⟩

/-! ### Steps that may stop -/

/-- Adding blocks and constants respects a relation, also where it stops. -/
structure Laying (R : Session α → Session α → Prop) : Prop where
  refl : ∀ s, R s s
  trans : ∀ s₁ s₂ s₃, R s₁ s₂ → R s₂ s₃ → R s₁ s₃
  add : ∀ primitive inputs kind, Keeps R (add primitive inputs kind)
  constPort : ∀ v, Keeps R (constPort v)

namespace Laying

variable {R : Session α → Session α → Prop}

theorem pure (h : Laying R) {β : Type} (b : β) : Keeps R (Pure.pure b : Lowering α β) :=
  keeps_pure h.refl b

theorem throw (h : Laying R) {β : Type} (e : CompileError α) :
    Keeps R (MonadExcept.throw e : Lowering α β) :=
  keeps_throw h.refl e

theorem bind (h : Laying R) {β γ : Type} {x : Lowering α β} {f : β → Lowering α γ}
    (hx : Keeps R x) (hf : ∀ b, Keeps R (f b)) : Keeps R (x >>= f) :=
  keeps_bind h.trans hx hf

theorem ofNet (h : Laying R) {β : Type} (x : Except NetError β) :
    Keeps R (Lowering.ofNet x : Lowering α β) := by
  cases x with
  | ok b => exact h.pure b
  | error e => exact h.throw _

theorem ofExpr (h : Laying R) {β : Type} (x : Except (ExprError α) β) :
    Keeps R (Lowering.ofExpr x) := by
  cases x with
  | ok b => exact h.pure b
  | error e => exact h.throw _

theorem checkDevice (h : Laying R) (host : Host α) (device : Option String) :
    Keeps R (Session.checkDevice host device) := by
  cases device with
  | none => exact h.pure _
  | some name =>
      simp only [Session.checkDevice]
      split
      · exact h.pure _
      · exact h.throw _

theorem lowerHop (h : Laying R) (host : Host α) (hop : Hop α) :
    Keeps R (Session.lowerHop host hop) := by
  cases hop with
  | fixed pose => exact h.constPort _
  | measured sensor device inverted =>
      refine h.bind (h.checkDevice host device) fun _ => h.bind (h.add _ _ _) fun measured => ?_
      split
      · exact h.add _ _ _
      · exact h.pure _

theorem lowerHops (h : Laying R) (host : Host α) (hops : List (Hop α)) (before : PortId) :
    Keeps R (Session.lowerHops host before hops) := by
  induction hops generalizing before with
  | nil => exact h.pure _
  | cons hop rest ih =>
      exact h.bind (h.lowerHop host hop) fun _ => h.bind (h.add _ _ _) fun product => ih product

theorem lowerRelation (h : Laying R) (host : Host α) (source target : String) :
    Keeps R (Session.lowerRelation host source target) := by
  unfold Session.lowerRelation
  split
  · exact h.throw _
  · exact h.constPort _
  · exact h.bind (h.lowerHop host _) fun first => h.lowerHops host _ first

/-- Lowering a node adds blocks and constants, and may open a placeholder. -/
theorem lowerStandard (h : Laying R) (program : Program α) {id : ExprId}
    (hopen : Keeps R (Session.openPlaceholder program.pool id)) (n : Node α)
    (inputs : List PortId) : Keeps R (Session.lowerStandard program id n inputs) := by
  unfold Session.lowerStandard
  cases n.form with
  | constant v => exact h.constPort v
  | parameter name =>
      show Keeps R (lowerParameter program.parameters name n.kind)
      unfold lowerParameter
      split
      · exact h.throw _
      · split
        · exact h.constPort _
        · exact h.throw _
  | sensor name device => exact h.bind (h.checkDevice _ _) fun _ => h.add _ _ _
  | relation source target => exact h.lowerRelation _ _ _
  | placeholder number label => exact hopen
  | persisted handle =>
      dsimp only
      split
      · exact h.throw _
      · exact h.add _ _ _
  | custom c => exact h.throw _
  | _ => exact h.add _ _ _

end Laying

/-- The steps that nodes are lowered by respect a relation, also where they
stop. -/
structure Steady (R : Session α → Session α → Prop) : Prop where
  refl : ∀ s, R s s
  trans : ∀ s₁ s₂ s₃, R s₁ s₂ → R s₂ s₃ → R s₁ s₃
  wire : ∀ {β : Type} {call : Wiring α β}, Fragment.Maintains call → Fragment.Silent call →
    Keeps R (wire call)
  constPort : ∀ v, Keeps R (constPort v)
  /-- Placeholders and sources may change. -/
  books : ∀ s placeholders resolvers, R s { s with placeholders, resolvers }

namespace Steady

variable {R : Session α → Session α → Prop}

theorem laying (h : Steady R) : Laying R where
  refl := h.refl
  trans := h.trans
  add primitive inputs kind := by
    unfold Session.add
    split
    · exact h.wire (Fragment.maintains_addSource _ _) (Fragment.silent_addSource _ _)
    · exact h.wire (Fragment.maintains_addWired _ _ _) (Fragment.silent_addWired _ _ _)
  constPort := h.constPort

theorem bind (h : Steady R) {β γ : Type} {x : Lowering α β} {f : β → Lowering α γ}
    (hx : Keeps R x) (hf : ∀ b, Keeps R (f b)) : Keeps R (x >>= f) :=
  h.laying.bind hx hf

theorem openPlaceholder (h : Steady R) (pool : Pool α) (id : ExprId) :
    Keeps R (Session.openPlaceholder pool id) := by
  refine h.bind (h.laying.ofExpr _) fun n => ?_
  split
  · have hadd := h.wire (Fragment.maintains_addBlock Primitive.identity [n.kind] (some n.kind))
      (Fragment.silent_addBlock _ _ _)
    refine h.bind hadd fun block => keeps_get_bind fun s => ?_
    refine h.bind (h.laying.ofNet _) (fun b => keeps_get_bind fun s => ?_) s
    refine h.bind (h.laying.ofNet _) (fun output => h.bind ?_ fun _ => h.laying.pure _) s
    exact fun s => h.books s _ s.resolvers
  · exact h.laying.throw _

end Steady

/-! ### The expressions entered -/

/-- The expressions entered stay the same. -/
def SameEntries (s s' : Session α) : Prop :=
  s'.lowered = s.lowered

theorem sameEntries_steady : Steady (SameEntries (α := α)) where
  refl _ := rfl
  trans _ _ _ h₁ h₂ := Eq.trans h₂ h₁
  wire := by
    intro β call _ _ s
    unfold wire
    cases call s.fragment <;> rfl
  constPort v := by
    apply keeps_get_bind
    intro s
    cases s.constants.get? v.canonical with
    | some port => rfl
    | none =>
        show SameEntries s (finalState (EStateM.bind _ _ s))
        unfold EStateM.bind wire
        cases Fragment.addSource (.constant v) v.kind s.fragment <;> rfl
  books _ _ _ := rfl

/-- A step of lowering enters nothing by itself. -/
theorem LoweredBy.lowered {program : Program α} {id : ExprId} {n : Node α}
    {inputs : List PortId} {s s' : Session α} {q : PortId}
    (h : LoweredBy program id n inputs s q s') : s'.lowered = s.lowered := by
  have hsame : ∀ {x : Lowering α PortId}, Keeps SameEntries x → x s = .ok q s' →
      s'.lowered = s.lowered := by
    intro x hx hrun
    have hs := hx s
    rw [hrun] at hs
    exact hs
  cases h with
  | constant _ hrun => exact hsame (sameEntries_steady.constPort _) hrun
  | parameter _ _ _ hrun => exact hsame (sameEntries_steady.constPort _) hrun
  | relation _ hrun => exact hsame (sameEntries_steady.laying.lowerRelation _ _ _) hrun
  | placeholder _ hrun => exact hsame (sameEntries_steady.openPlaceholder _ _) hrun
  | block _ hrun => exact hsame (sameEntries_steady.laying.add _ _ _) hrun

/-! ### Whole expressions -/

/-- The session with one more expression entered. -/
def entered (s : Session α) (id : ExprId) (q : PortId) : Session α :=
  { s with lowered := s.lowered.insert id q }

omit [Scalar α] in
/-- The port of an expression is entered if it carries the right kind. -/
theorem enter_eq_ok {s s' : Session α} {id : ExprId} {n : Node α} {key : String}
    {port q : PortId} (h : enter id n key port s = .ok q s') :
    q = port ∧ s.fragment.kindOf port = .ok n.kind ∧ s' = s.entered id port := by
  obtain ⟨_, _, hget, hafter⟩ := bind_eq_ok.mp h
  obtain ⟨rfl, rfl⟩ := get_eq_ok.mp hget
  obtain ⟨produced, _, hlookup, hafter⟩ := bind_eq_ok.mp hafter
  obtain ⟨hkind, rfl⟩ := ofNet_eq_ok.mp hlookup
  by_cases hproduced : produced = n.kind
  · rw [if_pos hproduced] at hafter
    obtain ⟨_, _, hmodify, hafter⟩ := bind_eq_ok.mp hafter
    obtain rfl := modify_eq_ok.mp hmodify
    obtain ⟨rfl, rfl⟩ := pure_eq_ok.mp hafter
    exact ⟨rfl, hproduced ▸ hkind, rfl⟩
  · rw [if_neg hproduced] at hafter
    exact absurd hafter throw_ne_ok

/-- What lowering leaves: the invariant holds, the expression is entered, and
so is what was entered before; nothing that stands behind it is. -/
structure Outcome (I : Session α → Prop) (id : ExprId) (s : Session α) (q : PortId)
    (s' : Session α) : Prop where
  holds : I s'
  entry : s'.lowered.get? id = some q
  kept : ∀ {j : ExprId} {port : PortId}, s.lowered.get? j = some port →
    s'.lowered.get? j = some port
  behind : ∀ {j : ExprId}, id < j → s'.lowered.get? j = s.lowered.get? j

section Induction

variable {program : Program α} {P : ExprId → Prop} {I : Session α → Prop}

omit [Scalar α] in
/-- Lowering operands from left to right. -/
theorem lowerEach_induct {lower : ExprId → Lowering α PortId} {bound : Nat} {ids : List ExprId}
    (hlower : ∀ id ∈ ids, ∀ {s s' : Session α} {q : PortId}, I s → lower id s = .ok q s' →
      Outcome I id s q s')
    (hbound : ∀ id ∈ ids, id < bound) {s s' : Session α} {ports : List PortId} (hs : I s)
    (h : lowerEach lower ids s = .ok ports s') :
    I s' ∧ List.Forall₂ (fun d q => s'.lowered.get? d = some q) ids ports ∧
      (∀ {j : ExprId} {port : PortId}, s.lowered.get? j = some port →
        s'.lowered.get? j = some port) ∧
      ∀ {j : ExprId}, bound ≤ j → s'.lowered.get? j = s.lowered.get? j := by
  induction ids generalizing s s' ports with
  | nil =>
      obtain ⟨rfl, rfl⟩ := pure_eq_ok.mp h
      exact ⟨hs, List.Forall₂.nil, id, fun _ => rfl⟩
  | cons d rest ih =>
      obtain ⟨q, s₁, hfirst, hafter⟩ := bind_eq_ok.mp h
      obtain ⟨qs, s₂, hrest, hafter⟩ := bind_eq_ok.mp hafter
      obtain ⟨rfl, rfl⟩ := pure_eq_ok.mp hafter
      have hout := hlower d (by simp) hs hfirst
      obtain ⟨hI, hall, hkept, hbehind⟩ := ih (fun id hid => hlower id (by simp [hid]))
        (fun id hid => hbound id (by simp [hid])) hout.holds hrest
      refine ⟨hI, List.Forall₂.cons (hkept hout.entry) hall, fun hj => hkept (hout.kept hj), ?_⟩
      intro j hj
      rw [hbehind hj, hout.behind (Nat.lt_of_lt_of_le (hbound d (by simp)) hj)]

/-- **Induction over lowering.**  If `I` is kept when one node below `P` is
lowered and entered, with its operands entered before, then lowering any
expression of `P` keeps it. -/
theorem lowerWithin_induct (hp : program.pool.WellFormed) (hrules : program.Standard P)
    (hclosed : ∀ {id : ExprId} {n : Node α}, P id → program.pool.get? id = some n →
      ∀ d ∈ n.dependencies, P d)
    (hstep : ∀ {id : ExprId} {n : Node α} {inputs : List PortId} {s s' : Session α} {q : PortId},
      P id → program.pool.get? id = some n → s.lowered.get? id = none → I s →
      List.Forall₂ (fun d q => s.lowered.get? d = some q) n.dependencies inputs →
      LoweredBy program id n inputs s q s' → s'.fragment.kindOf q = .ok n.kind →
      I (s'.entered id q)) :
    ∀ {fuel : Nat} {id : ExprId} {s s' : Session α} {q : PortId}, P id → I s →
      lowerWithin program fuel id s = .ok q s' → Outcome I id s q s' := by
  intro fuel
  induction fuel with
  | zero =>
      intro id s s' q _ _ h
      exact absurd h throw_ne_ok
  | succ fuel ih =>
      intro id s s' q hid hs h
      obtain ⟨_, _, hget, hafter⟩ := bind_eq_ok.mp h
      obtain ⟨rfl, rfl⟩ := get_eq_ok.mp hget
      cases hfind : s.lowered.get? id with
      | some port =>
          simp only [hfind] at hafter
          obtain ⟨rfl, rfl⟩ := pure_eq_ok.mp hafter
          exact ⟨hs, hfind, fun h => h, fun _ => rfl⟩
      | none =>
          simp only [hfind] at hafter
          obtain ⟨n, _, hlookup, hafter⟩ := bind_eq_ok.mp hafter
          obtain ⟨hnode, rfl⟩ := ofExpr_eq_ok.mp hlookup
          have hn := Pool.node_eq_ok.mp hnode
          obtain ⟨inputs, s₁, heach, hafter⟩ := bind_eq_ok.mp hafter
          obtain ⟨hI₁, hinputs, hkept₁, hbehind₁⟩ := lowerEach_induct
            (fun d hd _ _ _ hsd hrun => ih (hclosed hid hn d hd) hsd hrun)
            (hp.before hn) hs heach
          cases hrule : Rules.lookup? program.rules n.form.keys with
          | none =>
              simp only [hrule] at hafter
              exact absurd hafter throw_ne_ok
          | some found =>
              obtain ⟨key, rule⟩ := found
              simp only [hrule] at hafter
              obtain rfl := hrules id n key rule hid hn hrule
              obtain ⟨port, s₂, happly, hafter⟩ := bind_eq_ok.mp hafter
              have hby : LoweredBy program id n inputs s₁ port s₂ := lowerStandard_cases happly
              obtain ⟨hq, hkind, rfl⟩ := enter_eq_ok hafter
              subst hq
              -- Operands stand before the expression, so it is still not entered.
              have hfresh : s₁.lowered.get? id = none :=
                (hbehind₁ (Nat.le_refl id)).trans hfind
              have hlowered := hby.lowered
              refine ⟨hstep hid hn hfresh hI₁ hinputs hby hkind, Table.get?_insert_self _ _ _,
                ?_, ?_⟩
              · intro j r hj
                have hne : j ≠ id := by
                  rintro rfl
                  simp [hfind] at hj
                show (s₂.lowered.insert id q).get? j = some r
                rw [Table.get?_insert_of_ne _ _ hne, hlowered]
                exact hkept₁ hj
              · intro j hj
                show (s₂.lowered.insert id q).get? j = s.lowered.get? j
                rw [Table.get?_insert_of_ne _ _ (Nat.ne_of_gt hj), hlowered]
                exact hbehind₁ (Nat.le_of_lt hj)

end Induction

/-! ### The end of a session -/

section End

variable {program : Program α} {s s' : Session α}

/-- A placeholder is resolved by the first source collected for it. -/
theorem resolveOpen_eq_ok {resolvers : List (Resolver α)} {p : OpenPlaceholder} {u : Unit}
    (hrun : resolveOpen program resolvers p s = .ok u s') :
    ∃ r port s₁, (resolvers.find? fun r => r.targets.contains p.expr) = some r ∧
      sourcePort program r.source s = .ok port s₁ ∧ resolve p.number port s₁ = .ok u s' := by
  unfold resolveOpen at hrun
  cases hfind : resolvers.find? fun r => r.targets.contains p.expr with
  | none =>
      simp only [hfind] at hrun
      exact absurd hrun throw_ne_ok
  | some r =>
      simp only [hfind] at hrun
      obtain ⟨port, s₁, hsource, hresolve⟩ := bind_eq_ok.mp hrun
      exact ⟨r, port, s₁, rfl, hsource, hresolve⟩

theorem resolveWithin_succ (fuel : Nat) (s : Session α) :
    resolveWithin program (fuel + 1) s = if s.unresolved = [] then .ok () s
      else (resolveEach program s.resolvers s.unresolved >>= fun _ =>
        resolveWithin program fuel) s := by
  rw [resolveWithin, get_bind]
  cases s.unresolved with
  | nil => rfl
  | cons first rest => rfl

/-- **Induction over rounds.**  What each round keeps is kept by all of them. -/
theorem resolveWithin_induct {I : Session α → Prop}
    (hround : ∀ {s s' : Session α} {u : Unit}, I s →
      resolveEach program s.resolvers s.unresolved s = .ok u s' → I s')
    {fuel : Nat} {u : Unit} (hs : I s) (hrun : resolveWithin program fuel s = .ok u s') : I s' := by
  induction fuel generalizing s with
  | zero =>
      obtain ⟨-, rfl⟩ := pure_eq_ok.mp hrun
      exact hs
  | succ fuel ih =>
      rw [resolveWithin_succ] at hrun
      by_cases hdone : s.unresolved = []
      · rw [if_pos hdone] at hrun
        cases hrun
        exact hs
      · rw [if_neg hdone] at hrun
        obtain ⟨_, s₁, heach, hrest⟩ := bind_eq_ok.mp hrun
        exact ih (hround hs heach) hrest

/-- A session ends when its placeholders are resolved and its fragment passes the
final check. -/
theorem finish_eq_ok {f : Fragment α} (hrun : finish program s = .ok f s') :
    resolveWithin program (program.pool.size + 2) s = .ok () s' ∧ s'.fragment = f ∧
      f.validate = .ok () := by
  obtain ⟨_, s₁, hresolve, hafter⟩ := bind_eq_ok.mp hrun
  obtain ⟨_, _, hget, hafter⟩ := bind_eq_ok.mp hafter
  obtain ⟨rfl, rfl⟩ := get_eq_ok.mp hget
  obtain ⟨_, _, hvalidate, hafter⟩ := bind_eq_ok.mp hafter
  obtain ⟨hvalid, rfl⟩ := ofNet_eq_ok.mp hvalidate
  obtain ⟨rfl, rfl⟩ := pure_eq_ok.mp hafter
  exact ⟨hresolve, rfl, hvalid⟩

/-- It fails where a round does, or at the final check. -/
theorem finish_eq_error {e : CompileError α} (hrun : finish program s = .error e s') :
    resolveWithin program (program.pool.size + 2) s = .error e s' ∨
      resolveWithin program (program.pool.size + 2) s = .ok () s' ∧
        ∃ cause, s'.fragment.validate = .error cause ∧ e = .net cause := by
  rcases bind_eq_error.mp hrun with hrounds | ⟨u, s₁, hrounds, hafter⟩
  · exact Or.inl hrounds
  · rw [get_bind] at hafter
    cases hvalid : s₁.fragment.validate with
    | ok _ =>
        simp only [hvalid] at hafter
        cases hafter
    | error cause =>
        simp only [hvalid] at hafter
        cases hafter
        exact Or.inr ⟨hrounds, cause, hvalid, rfl⟩

end End

/-! ### Actions -/

section Actions

variable {program : Program α} {s s' : Session α} {name : String}
  {raises : List RaiseSite} {ports : ActionPorts}

/-- An action that wraps no other is its motion, the states of the motion and
the exceptions of the action, in this order. -/
theorem lowerAction_basic_eq_ok {motion : Motion α}
    (hrun : lowerAction program (.basic name motion raises) s = .ok ports s') :
    ∃ outputs completed signals result s₁ s₂,
      lowerMotion program motion s = .ok (outputs, completed) s₁ ∧
      registerCompleted completed {} s₁ = .ok signals s₂ ∧
      lowerRaises program raises signals s₂ = .ok result s' ∧
      ports = .mk name outputs result [] := by
  rw [lowerAction] at hrun
  obtain ⟨⟨outputs, completed⟩, s₁, hmotion, hafter⟩ := bind_eq_ok.mp hrun
  obtain ⟨signals, s₂, hregister, hafter⟩ := bind_eq_ok.mp hafter
  obtain ⟨result, s₃, hraises, hafter⟩ := bind_eq_ok.mp hafter
  obtain ⟨rfl, rfl⟩ := pure_eq_ok.mp hafter
  exact ⟨outputs, completed, signals, result, s₁, s₂, hmotion, hregister, hraises, rfl⟩

/-- A wrapper comes after the action inside. -/
theorem lowerAction_wrapped_eq_ok {inner : Action α} {handled : List ExceptionClass}
    (hrun : lowerAction program (.wrapped name inner handled raises) s = .ok ports s') :
    ∃ inside completed signals result s₁ s₂ s₃,
      lowerAction program inner s = .ok inside s₁ ∧
      anyOf (inside.signals.statePorts .completed) s₁ = .ok completed s₂ ∧
      registerCompleted completed (passedOn handled inside.signals) s₂ = .ok signals s₃ ∧
      lowerRaises program raises signals s₃ = .ok result s' ∧
      ports = .mk name inside.outputs result [inside] := by
  rw [lowerAction] at hrun
  obtain ⟨inside, s₁, hinside, hafter⟩ := bind_eq_ok.mp hrun
  obtain ⟨completed, s₂, hany, hafter⟩ := bind_eq_ok.mp hafter
  obtain ⟨signals, s₃, hregister, hafter⟩ := bind_eq_ok.mp hafter
  obtain ⟨result, s₄, hraises, hafter⟩ := bind_eq_ok.mp hafter
  obtain ⟨rfl, rfl⟩ := pure_eq_ok.mp hafter
  exact ⟨inside, completed, signals, result, s₁, s₂, s₃, hinside, hany, hregister, hraises, rfl⟩

end Actions

/-! ### States that are entered and left -/

section Latches

variable (program : Program α) (action : ActionPorts)

/-- What deactivates a state, nothing if it is never left. -/
def lowerDeactivation : Option (StateExpr α) → Lowering α (Option PortId)
  | none => pure none
  | some e => lowerState program action e

/-- The port that resets a latch; a latch without one is never reset. -/
def resetPort : Option PortId → Lowering α PortId
  | some port => pure port
  | none => constPort (.boolean false)

/-- The latch of a state, once it is known what sets and what resets it. -/
def lowerLatch (set : PortId) (off : Option PortId) : Lowering α (Option PortId) :=
  resetPort off >>= fun reset => some <$> add .latch [set, reset] .boolean

/-- A state that is entered and left is a latch, or nothing if it is never
entered. -/
theorem lowerState_explicit (activate : StateExpr α) (deactivate : Option (StateExpr α)) :
    lowerState program action (.explicit activate deactivate) =
      lowerState program action activate >>= fun found =>
        match found with
        | none => pure none
        | some set => lowerDeactivation program action deactivate >>= lowerLatch set := by
  rw [lowerState]
  congr 1
  funext found
  cases found with
  | none => rfl
  | some set =>
      cases deactivate
      all_goals
        refine congrArg (bind _) (funext fun off => ?_)
        cases off <;> rfl

end Latches

/-! ### Commands -/

section Commands

variable {program : Program α} {s s' : Session α} {c : Command α} {action ports : ActionPorts}

/-- Keeping a value lowers its expression and wires a sink to it. -/
theorem storePersisted_eq_ok {handle : Nat} {u : Unit}
    (hrun : storePersisted program handle s = .ok u s') :
    ∃ slot source value s₁ kind, program.pool.persistSource handle = .ok source ∧
      Session.lower program source s = .ok value s₁ ∧
      Fragment.Fits (.store slot : Primitive α) [kind] none ∧
      let f := s₁.fragment.withBlock (.store slot) [kind] none
      (∃ p t, f.ports[value]? = some p ∧ f.ports[s₁.fragment.ports.length]? = some t ∧
        p.direction = .output ∧ t.direction = .input ∧ p.kind = t.kind) ∧
      f.producer? s₁.fragment.ports.length = none ∧
      s' = { s₁ with fragment := f.withWires [⟨value, s₁.fragment.ports.length⟩] } := by
  unfold storePersisted at hrun
  cases hslot : program.parameters.slot? handle with
  | none =>
      simp only [hslot] at hrun
      exact absurd hrun throw_ne_ok
  | some slot =>
      simp only [hslot] at hrun
      obtain ⟨source, _, hlookup, hafter⟩ := bind_eq_ok.mp hrun
      obtain ⟨hsource, rfl⟩ := ofExpr_eq_ok.mp hlookup
      obtain ⟨value, s₁, hlower, hafter⟩ := bind_eq_ok.mp hafter
      obtain ⟨_, _, hget, hafter⟩ := bind_eq_ok.mp hafter
      obtain ⟨rfl, rfl⟩ := get_eq_ok.mp hget
      obtain ⟨kind, _, hlookup, hafter⟩ := bind_eq_ok.mp hafter
      obtain ⟨-, rfl⟩ := ofNet_eq_ok.mp hlookup
      obtain ⟨block, s₂, hwire, hafter⟩ := bind_eq_ok.mp hafter
      obtain ⟨f, hadd, rfl⟩ := wire_eq_ok.mp hwire
      obtain ⟨hfits, rfl, rfl⟩ := Fragment.addBlock_eq_ok.mp hadd
      obtain ⟨_, _, hget₂, hafter⟩ := bind_eq_ok.mp hafter
      obtain ⟨rfl, rfl⟩ := get_eq_ok.mp hget₂
      obtain ⟨blk, _, hblock, hafter⟩ := bind_eq_ok.mp hafter
      obtain ⟨hblk, rfl⟩ := ofNet_eq_ok.mp hblock
      rw [Fragment.block_eq_ok, Fragment.withBlock_block] at hblk
      cases hblk
      obtain ⟨g, hconnect, rfl⟩ := wire_eq_ok.mp hafter
      obtain ⟨hports, hfree, rfl⟩ := Fragment.connect_eq_ok.mp hconnect
      exact ⟨slot, source, value, s₁, kind, hsource, hlower, hfits, hports, hfree, rfl⟩

/-- The ports of a command, beside those of its action. -/
structure CommandPorts where
  scale : PortId
  /-- Some request of cancellation. -/
  cancel : PortId
  still : PortId
  /-- The scale has come down. -/
  stopped : PortId
  cancelled : PortId
  effective : PortId

/-- Lower the action of a command and its input for cancellation. -/
def lowerCancelInput (program : Program α) (c : Command α) :
    Lowering α (ActionPorts × PortId) := do
  let action ← lowerAction program c.action
  addResolver ⟨[c.scaleState], .expression c.scale⟩
  let ramps := c.action.scalePlaceholders
  if !ramps.isEmpty then addResolver ⟨ramps, .expression c.effective⟩
  return (action, ← lower program c.cancelInput)

/-- Lower what comes after the requests to cancel a command. -/
def lowerCancellation (program : Program α) (c : Command α) (action : ActionPorts)
    (handled : Handled) : Lowering α ActionPorts := do
  let cancel ← anyOf handled.cancels
  addResolver ⟨[c.cancel], .port cancel⟩
  let scale ← lower program c.scale
  let still ← constPort (.double 0)
  let stopped ← add (.compare .lessEq) [scale, still] .boolean
  let cancelled ← allOf [cancel, stopped]
  let signals := handled.signals.register (.state .cancelled) cancelled
  let effective ← lower program c.effective
  let outputs := action.outputs.insert c.overrideOutputName effective
  storeEach program c.persists
  return .mk c.name outputs signals [action]

/-- A command is lowered in three stages. -/
theorem lowerCommand_stages (program : Program α) (c : Command α) :
    lowerCommand program c = (do
      let (action, cancelInput) ← lowerCancelInput program c
      let handled ← lowerHandlers program action c.handlers ⟨action.signals, [cancelInput]⟩
      lowerCancellation program c action handled) := by
  unfold lowerCommand lowerCancelInput lowerCancellation
  simp only [bind_assoc]
  congr 1
  funext action
  congr 1
  funext _
  split
  · simp only [bind_assoc, pure_bind]
  · simp only [bind_assoc, pure_bind]

theorem lowerCommand_eq_ok (hrun : lowerCommand program c s = .ok ports s') :
    ∃ action input handled s₁ s₂, lowerCancelInput program c s = .ok (action, input) s₁ ∧
      lowerHandlers program action c.handlers ⟨action.signals, [input]⟩ s₁ = .ok handled s₂ ∧
      lowerCancellation program c action handled s₂ = .ok ports s' := by
  rw [lowerCommand_stages] at hrun
  obtain ⟨⟨action, input⟩, s₁, hinput, hafter⟩ := bind_eq_ok.mp hrun
  obtain ⟨handled, s₂, hhandlers, hcancellation⟩ := bind_eq_ok.mp hafter
  exact ⟨action, input, handled, s₁, s₂, hinput, hhandlers, hcancellation⟩

omit [Scalar α] in
/-- A source for ramps is collected if there are any. -/
theorem ramps_eq_ok {ids : List ExprId} {source : Source α} {β : Type} {f : Unit → Lowering α β}
    {b : β}
    (hrun : (if (!ids.isEmpty) = true then addResolver ⟨ids, source⟩ >>= f else f ()) s =
      .ok b s') :
    ∃ t, (ids = [] ∧ t = s ∨ addResolver ⟨ids, source⟩ s = .ok () t) ∧ f () t = .ok b s' := by
  obtain ⟨t, hramps, hafter⟩ := ite_bind_eq_ok hrun
  refine ⟨t, ?_, hafter⟩
  rcases hramps with ⟨hnone, rfl⟩ | ⟨-, hresolver⟩
  · exact Or.inl ⟨by simpa using hnone, rfl⟩
  · exact Or.inr hresolver

/-- The scale of a command is the source for its own state, and the override is
the source for the scales of the ramps. -/
theorem lowerCancelInput_eq_ok {input : PortId}
    (hrun : lowerCancelInput program c s = .ok (action, input) s') :
    ∃ s₁ s₂ s₃, lowerAction program c.action s = .ok action s₁ ∧
      addResolver ⟨[c.scaleState], .expression c.scale⟩ s₁ = .ok () s₂ ∧
      (c.action.scalePlaceholders = [] ∧ s₃ = s₂ ∨
        addResolver ⟨c.action.scalePlaceholders, .expression c.effective⟩ s₂ = .ok () s₃) ∧
      lower program c.cancelInput s₃ = .ok input s' := by
  obtain ⟨_, s₁, haction, hafter⟩ := bind_eq_ok.mp hrun
  obtain ⟨_, s₂, hscale, hafter⟩ := bind_eq_ok.mp hafter
  obtain ⟨s₃, hramps, hafter⟩ := ramps_eq_ok hafter
  obtain ⟨_, s₄, hinput, hafter⟩ := bind_eq_ok.mp hafter
  obtain ⟨heq, rfl⟩ := pure_eq_ok.mp hafter
  cases heq
  exact ⟨s₁, s₂, s₃, haction, hscale, hramps, hinput⟩

/-- A command is cancelled once cancellation is requested and the scale has come
down. -/
theorem lowerCancellation_eq_ok {handled : Handled} {result : ActionPorts}
    (hrun : lowerCancellation program c action handled s = .ok result s') :
    ∃ (ports : CommandPorts) (s₁ s₂ s₃ s₄ s₅ s₆ s₇ : Session α),
      anyOf handled.cancels s = .ok ports.cancel s₁ ∧
      addResolver ⟨[c.cancel], .port ports.cancel⟩ s₁ = .ok () s₂ ∧
      lower program c.scale s₂ = .ok ports.scale s₃ ∧
      constPort (.double 0) s₃ = .ok ports.still s₄ ∧
      add (.compare .lessEq) [ports.scale, ports.still] .boolean s₄ = .ok ports.stopped s₅ ∧
      allOf [ports.cancel, ports.stopped] s₅ = .ok ports.cancelled s₆ ∧
      lower program c.effective s₆ = .ok ports.effective s₇ ∧
      storeEach program c.persists s₇ = .ok () s' ∧
      result = .mk c.name (action.outputs.insert c.overrideOutputName ports.effective)
        (handled.signals.register (.state .cancelled) ports.cancelled) [action] := by
  obtain ⟨cancel, s₁, hany, hafter⟩ := bind_eq_ok.mp hrun
  obtain ⟨_, s₂, hresolver, hafter⟩ := bind_eq_ok.mp hafter
  obtain ⟨scale, s₃, hscale, hafter⟩ := bind_eq_ok.mp hafter
  obtain ⟨still, s₄, hstill, hafter⟩ := bind_eq_ok.mp hafter
  obtain ⟨stopped, s₅, hstopped, hafter⟩ := bind_eq_ok.mp hafter
  obtain ⟨cancelled, s₆, hcancelled, hafter⟩ := bind_eq_ok.mp hafter
  obtain ⟨effective, s₇, heffective, hafter⟩ := bind_eq_ok.mp hafter
  obtain ⟨_, s₈, hstores, hafter⟩ := bind_eq_ok.mp hafter
  obtain ⟨rfl, rfl⟩ := pure_eq_ok.mp hafter
  exact ⟨⟨scale, cancel, still, stopped, cancelled, effective⟩, s₁, s₂, s₃, s₄, s₅, s₆, s₇, hany,
    hresolver, hscale, hstill, hstopped, hcancelled, heffective, hstores, rfl⟩

end Commands

end Session

end SignalNet
