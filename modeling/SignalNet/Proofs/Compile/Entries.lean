import SignalNet.Proofs.Compile.Calls
import SignalNet.Proofs.Compile.Wired
import SignalNet.Proofs.Pool.Course

/-!
# Each expression is lowered once

A session remembers the ports of the expressions that it has lowered, and of
constants.  Expressions that are equal are one node of the pool, the port of a
node is entered once, and constants of one value share a block.  So an
expression that many others refer to has a single block, and two expressions
never share one, except for constants and parameters, and for the constants on
the path of a relation.

* `Session.OwnBlock` is the block of an expression, and
  `Session.LoweredBy.newBlock` says that lowering a node makes a new one.
* `Session.Apart` says that these blocks differ, and `Session.LoweredBy.apart`
  is the step for one node.
* `Session.lowered_once` says what a session remembers after any expressions
  have been lowered.
-/

namespace SignalNet

open Computing

/-- Forms that are lowered to one block of their own.  Constants and parameters
share blocks, and a relation is a product along a path. -/
def Form.hasBlock {α : Type} : Form α → Bool
  | .constant _ | .parameter _ | .relation _ _ => false
  | _ => true

namespace Session

open Lowering

variable {α : Type} [Scalar α] {program : Program α} {s s' : Session α} {id : ExprId}
  {n : Node α} {q : PortId}

/-! ### Blocks of expressions -/

omit [Scalar α] in
/-- The block to which an expression has been lowered, if its form has one. -/
def OwnBlock (program : Program α) (s : Session α) (id : ExprId) (b : BlockId) : Prop :=
  ∃ n q port, program.pool.get? id = some n ∧ n.form.hasBlock = true ∧
    s.lowered.get? id = some q ∧ s.fragment.ports[q]? = some port ∧ port.block = b

omit [Scalar α] in
/-- No two expressions have one block. -/
def Apart (program : Program α) (s : Session α) : Prop :=
  ∀ {i j : ExprId} {b : BlockId}, OwnBlock program s i b → OwnBlock program s j b → i = j

omit [Scalar α] in
theorem OwnBlock.lt (hf : s.fragment.WellFormed) {b : BlockId} (h : OwnBlock program s id b) :
    b < s.fragment.blocks.length := by
  obtain ⟨_, _, port, -, -, -, hport, rfl⟩ := h
  obtain ⟨blk, hblk, -⟩ := hf.owner hport
  exact (List.getElem?_eq_some_iff.mp hblk).1

/-- A form with a block of its own is lowered to a new block. -/
theorem LoweredBy.newBlock (hf : s.fragment.WellFormed) {inputs : List PortId}
    (hn : program.pool.get? id = some n) (hform : n.form.hasBlock = true)
    (h : LoweredBy program id n inputs s q s') :
    ∃ port, s'.fragment.ports[q]? = some port ∧ port.block = s.fragment.blocks.length := by
  cases h with
  | constant hconstant => simp [hconstant, Form.hasBlock] at hform
  | parameter hparameter => simp [hparameter, Form.hasBlock] at hform
  | relation hrelation => simp [hrelation, Form.hasBlock] at hform
  | placeholder hplaceholder hrun =>
      obtain ⟨-, rfl, rfl⟩ := openPlaceholder_eq_ok hn hplaceholder hrun
      exact ⟨_, Fragment.withBlock_output, rfl⟩
  | block hprimitive hrun =>
      obtain ⟨f, kinds, hadded, rfl⟩ := add_added hf hrun
      exact ⟨_, hadded.output, rfl⟩

/-- **The step of lowering** keeps blocks apart: the block of the node is new,
and those of the other expressions stay. -/
theorem LoweredBy.apart (hs : Typed program s) (happart : Apart program s) {inputs : List PortId}
    (hn : program.pool.get? id = some n) (hextends : s.fragment.Extends s'.fragment)
    (hby : LoweredBy program id n inputs s q s') : Apart program (s'.entered id q) := by
  have hold : ∀ {j : ExprId} {b : BlockId}, j ≠ id → OwnBlock program (s'.entered id q) j b →
      OwnBlock program s j b := by
    rintro j b hj ⟨m, r, port, hm, hform, hr, hport, hb⟩
    have hr : s.lowered.get? j = some r := by
      rw [← hby.lowered]
      exact (Table.get?_insert_of_ne _ _ hj).symm.trans hr
    obtain ⟨_, -, port', hport', -⟩ := hs.entries hr
    have hsame : s'.fragment.ports[r]? = some port' := hextends.port hport'
    rw [show s'.fragment.ports[r]? = some port from hport] at hsame
    cases hsame
    exact ⟨m, r, port, hm, hform, hr, hport', hb⟩
  have hnew : ∀ {b : BlockId}, OwnBlock program (s'.entered id q) id b →
      b = s.fragment.blocks.length := by
    rintro b ⟨m, r, port, hm, hform, hr, hport, rfl⟩
    rw [hn] at hm
    cases hm
    obtain rfl : q = r := Option.some.inj ((Table.get?_insert_self _ _ _).symm.trans hr)
    obtain ⟨port', hport', hb⟩ := hby.newBlock hs.wellFormed hn hform
    rw [show s'.fragment.ports[q]? = some port from hport] at hport'
    cases hport'
    exact hb
  -- A block of another expression was there before, unlike the new one.
  intro i j b hi hj
  by_cases hid : i = id <;> by_cases hjd : j = id
  · rw [hid, hjd]
  · subst hid
    have hlt := (hold hjd hj).lt hs.wellFormed
    rw [hnew hi] at hlt
    exact absurd hlt (Nat.lt_irrefl _)
  · subst hjd
    have hlt := (hold hid hi).lt hs.wellFormed
    rw [hnew hj] at hlt
    exact absurd hlt (Nat.lt_irrefl _)
  · exact happart (hold hid hi) (hold hjd hj)

/-! ### What a session remembers -/

omit [Scalar α] in
theorem apart_empty (program : Program α) : Apart program empty := by
  rintro i j b ⟨_, _, _, -, -, hq, -⟩
  simp [empty, Table.get?] at hq

/-- Sessions in which expressions have been lowered and nothing else has been
done. -/
structure Lowered (program : Program α) (s : Session α) : Prop where
  typed : Typed program s
  wired : Wired program s
  apart : Apart program s

theorem lowered_empty (program : Program α) : Lowered program empty :=
  ⟨typed_empty program, wired_empty program, apart_empty program⟩

/-- Lowering one more expression. -/
theorem Lowered.lower (hprogram : program.Regular) (h : Lowered program s)
    (hrun : Session.lower program id s = .ok q s') :
    Outcome (Lowered program) id s q s' := by
  refine lowerWithin_induct (P := fun _ => True) hprogram.pool (.of_rules hprogram.rules)
    (fun _ _ _ _ => trivial) ?_ trivial h hrun
  rintro j n inputs s₁ s₂ r - hn hfresh h₁ hinputs hby hkind
  obtain ⟨hleads, kind, hoffers⟩ := hby.typed hprogram hn h₁.typed hinputs
  obtain ⟨hwired, -⟩ : Wired program (s₂.entered j r) ∧ s₁.Grows [] (s₂.entered j r) :=
    hby.wired h₁.wired hn (Program.founded_of_rules hprogram.pool hprogram.rules j) hfresh hinputs
  rw [hoffers.kindOf] at hkind
  obtain rfl := Except.ok.inj hkind
  exact ⟨hleads.typed.entered (Pool.kindOf_eq_ok.mpr ⟨n, hn, rfl⟩) hoffers, hwired,
    hby.apart h₁.typed h₁.apart hn hleads.extends⟩

/-- Lowering expressions one after the other. -/
theorem Lowered.lowerEach (hprogram : program.Regular) {ids : List ExprId} {ports : List PortId}
    (h : Lowered program s) (hrun : Session.lowerEach (Session.lower program) ids s = .ok ports s') :
    Lowered program s' ∧ List.Forall₂ (fun id q => s'.lowered.get? id = some q) ids ports ∧
      ∀ {j : ExprId} {r : PortId}, s.lowered.get? j = some r → s'.lowered.get? j = some r := by
  induction ids generalizing s ports with
  | nil =>
      obtain ⟨rfl, rfl⟩ := pure_eq_ok.mp hrun
      exact ⟨h, .nil, fun hj => hj⟩
  | cons d rest ih =>
      obtain ⟨q, s₁, hfirst, hafter⟩ := bind_eq_ok.mp hrun
      obtain ⟨qs, s₂, hrest, hafter⟩ := bind_eq_ok.mp hafter
      obtain ⟨rfl, rfl⟩ := pure_eq_ok.mp hafter
      have hout := h.lower hprogram hfirst
      obtain ⟨hlowered, hall, hkept⟩ := ih hout.holds hrest
      exact ⟨hlowered, .cons (hkept hout.entry) hall, fun hj => hkept (hout.kept hj)⟩

/-- What a session remembers of the expressions that it has lowered. -/
structure Remembers (program : Program α) (s : Session α) : Prop where
  /-- The ports are outputs of the right kinds. -/
  offers : ∀ {id : ExprId} {q : PortId}, s.lowered.get? id = some q →
    ∃ n, program.pool.get? id = some n ∧ s.fragment.Offers q n.kind
  /-- With an expression its operands have been lowered. -/
  closed : ∀ {id : ExprId} {n : Node α} {q : PortId}, s.lowered.get? id = some q →
    program.pool.get? id = some n → ∀ d ∈ n.dependencies, ∃ r, s.lowered.get? d = some r
  /-- Lowering an expression again changes nothing. -/
  again : ∀ {id : ExprId} {q : PortId}, s.lowered.get? id = some q →
    lower program id s = .ok q s
  apart : Apart program s
  /-- The block of an expression has one input for each operand, in order, which
  is fed by the port of the operand. -/
  driven : ∀ {id : ExprId} {n : Node α} {b : BlockId}, OwnBlock program s id b →
    program.pool.get? id = some n → n.form.isPlaceholder = false →
    ∃ blk, s.fragment.blocks[b]? = some blk ∧ s.lowered.get? id = blk.output ∧
      List.Forall₂ (fun d input => ∃ r, s.lowered.get? d = some r ∧
        s.fragment.producer? input = some r) n.dependencies blk.inputs

omit [Scalar α] in
/-- What has been entered is not lowered again. -/
theorem lower_again [Scalar α] (h : s.lowered.get? id = some q) :
    lower program id s = .ok q s := by
  rw [lower, lowerWithin_succ, h]

/-- Expressions without primitives have no operands. -/
theorem Shows.closed (hkeeps : program.rules.Keeps n.form) (h : Shows program s id n q) :
    ∀ d ∈ n.dependencies, ∃ r, s.lowered.get? d = some r := by
  intro d hd
  cases h with
  | ruled hother => exact absurd hkeeps hother
  | block _ _ hsources =>
      obtain ⟨r, -, hr⟩ := forall₂_exists_of_mem hsources hd
      exact ⟨r, hr⟩
  | constant hform => simp [Node.dependencies, hform, Form.dependencies] at hd
  | placeholder hform => simp [Node.dependencies, hform, Form.dependencies] at hd
  | given hform =>
      obtain ⟨name, hform⟩ | ⟨source, target, hform⟩ := hform <;>
        simp [Node.dependencies, hform, Form.dependencies] at hd

/-- The block behind the port of an expression that is no placeholder. -/
theorem Shows.driven (hkeeps : program.rules.Keeps n.form) (h : Shows program s id n q) (hform : n.form.hasBlock = true)
    (hplain : n.form.isPlaceholder = false) {port : Port}
    (hport : s.fragment.ports[q]? = some port) :
    ∃ blk, s.fragment.blocks[port.block]? = some blk ∧ blk.output = some q ∧
      List.Forall₂ (fun d input => ∃ r, s.lowered.get? d = some r ∧
        s.fragment.producer? input = some r) n.dependencies blk.inputs := by
  cases h with
  | ruled hother => exact absurd hkeeps hother
  | block _ hmakes hsources =>
      obtain ⟨b, blk, hproduces⟩ := hmakes
      have hsame := hproduces.port
      rw [hport] at hsame
      cases hsame
      refine ⟨blk, hproduces.block, hproduces.output, ?_⟩
      refine (forall₂_meet hsources.flip hproduces.fed.flip).imp ?_
      rintro d input ⟨r, hr, hinput⟩
      exact ⟨r, hr, hinput⟩
  | constant hconstant => simp [hconstant, Form.hasBlock] at hform
  | placeholder hplaceholder => simp [hplaceholder, Form.isPlaceholder] at hplain
  | given hgiven =>
      obtain ⟨name, hgiven⟩ | ⟨source, target, hgiven⟩ := hgiven <;>
        simp [hgiven, Form.hasBlock] at hform

theorem Lowered.remembers (hrules : program.rules = .standard) (h : Lowered program s) : Remembers program s where
  offers := by
    intro id q hq
    obtain ⟨kind, hkind, hoffers⟩ := h.typed.entries hq
    obtain ⟨n, hn, rfl⟩ := Pool.kindOf_eq_ok.mp hkind
    exact ⟨n, hn, hoffers⟩
  closed := by
    intro id n q hq hn
    obtain ⟨m, hm, hshows⟩ := h.wired.entries hq
    rw [hn] at hm
    cases hm
    exact hshows.closed (hrules ▸ Rules.standard_keeps _)
  again := lower_again
  apart := h.apart
  driven := by
    rintro id n b ⟨m, q, port, hm, hform, hq, hport, rfl⟩ hn hplain
    rw [hn] at hm
    cases hm
    obtain ⟨m, hm, hshows⟩ := h.wired.entries hq
    rw [hn] at hm
    cases hm
    obtain ⟨blk, hblk, hout, hinputs⟩ := hshows.driven (hrules ▸ Rules.standard_keeps _) hform hplain hport
    exact ⟨blk, hblk, hq.trans hout.symm, hinputs⟩

/-- **Each expression is lowered once, to its own block.**  After any expressions
have been lowered, in any order and any number of times, their ports are
outputs of the right kinds; so are those of their operands; lowering one of
them again changes nothing; two expressions with blocks of their own have
different ones; and the inputs of such a block are fed by the ports of the
operands. -/
theorem lowered_once {program : Program α} (hpool : program.pool.Reachable)
    (hrules : program.rules = .standard) {ids : List ExprId} {ports : List PortId}
    {s : Session α} (hrun : lowerEach (lower program) ids empty = .ok ports s) :
    Remembers program s ∧
      List.Forall₂ (fun id q => s.lowered.get? id = some q) ids ports := by
  obtain ⟨hlowered, hports, -⟩ :=
    (lowered_empty program).lowerEach ⟨hpool.wellFormed, hrules⟩ hrun
  exact ⟨hlowered.remembers hrules, hports⟩

end Session

/-- A sum that four other expressions refer to. -/
def Sample.shared : Program Float :=
  { pool := Pool.performAll [.input "x" .double .global, .binary .add 0 0, .pre 1 (.double 0),
      .binary .mul 1 2, .placeholder "p" .double .global, .compare .less 1 4, .select 5 1 3]
      { folding := false }
    rules := .standard
    parameters := {}
    settings := .standard
    host := .offline }

/-- Lowering the product twice gives the same port. -/
theorem Session.shared_lowered_once :
    ∃ s, Session.lowerEach (Session.lower Sample.shared) [3, 6, 1, 3] .empty =
        .ok [8, 17, 3, 8] s ∧
      Session.Remembers Sample.shared s ∧
      List.Forall₂ (fun id q => s.lowered.get? id = some q) [3, 6, 1, 3] [8, 17, 3, 8] := by
  have hports : (match Session.lowerEach (Session.lower Sample.shared) [3, 6, 1, 3] .empty with
      | .ok ports _ => some ports
      | .error _ _ => none) = some [8, 17, 3, 8] := by decide +kernel
  cases hrun : Session.lowerEach (Session.lower Sample.shared) [3, 6, 1, 3] .empty with
  | error e s => simp [hrun] at hports
  | ok ports s =>
      simp only [hrun, Option.some.injEq] at hports
      subst hports
      exact ⟨s, rfl, Session.lowered_once ⟨false, _, rfl⟩ rfl hrun⟩

end SignalNet
