import SignalNet.Proofs.Compile.Lowering
import SignalNet.Proofs.Net.Typing
import SignalNet.Proofs.Pool.Kinds

/-!
# Primitives fit their forms

A node is lowered to a primitive that accepts the kinds of the operands and
the kind of the node (`Pool.WellFormed.accepts`): a leaf carries its kind itself
(`Node.OfLeaf.accepts`), and any other form has the kind that typing gives it
(`Form.accepts_of_gives`).
-/

namespace SignalNet

open Computing

variable {α : Type} [Scalar α]

/-- The primitive of a leaf has no inputs. -/
theorem Node.OfLeaf.accepts {n : Node α} (h : n.OfLeaf) (hleaf : n.form.isComposite = false)
    {parameters : Parameters α} {primitive : Primitive α}
    (hprimitive : n.form.primitive? parameters = some primitive) : primitive.Accepts [] n.kind := by
  obtain ⟨form, kind, scope, constant⟩ := n
  cases form with
  | sensor name device | input name =>
      cases hprimitive
      rfl
  | persisted handle =>
      obtain ⟨slot, -, rfl⟩ := Option.map_eq_some_iff.mp hprimitive
      rfl
  | clock signal =>
      cases hprimitive
      exact ⟨rfl, h.1⟩
  | constant v | parameter name | relation source target | placeholder number label | custom c =>
      cases hprimitive
  | _ => cases hleaf

/-- The primitive of a form that is built from operands accepts the kinds that
the form asks for. -/
theorem Form.accepts_of_gives {p : Pool α} {form : Form α} {kind : Kind}
    (h : p.Gives form kind) {parameters : Parameters α} {primitive : Primitive α}
    (hprimitive : form.primitive? parameters = some primitive) {kinds : List Kind}
    (hkinds : List.Forall₂ (fun d k => p.kindOf d = .ok k) form.dependencies kinds) :
    primitive.Accepts kinds kind := by
  have hsame : ∀ {expected : List Kind},
      List.Forall₂ (fun d k => p.kindOf d = .ok k) form.dependencies expected →
      kinds = expected :=
    List.right_unique_forall₂' (fun _ _ _ h h' => Except.ok.inj (h.symm.trans h')) hkinds
  cases form with
  | unary op x =>
      cases hprimitive
      obtain ⟨a, hx, hresult⟩ := h
      exact ⟨a, hsame (.cons hx .nil), hresult⟩
  | binary op x y | compare op x y =>
      cases hprimitive
      obtain ⟨a, b, hx, hy, hresult⟩ := h
      exact ⟨a, b, hsame (.cons hx (.cons hy .nil)), hresult⟩
  | select c t f =>
      cases hprimitive
      obtain ⟨hc, ht, hf⟩ := h
      exact hsame (.cons hc (.cons ht (.cons hf .nil)))
  | limit x lo hi =>
      cases hprimitive
      obtain ⟨hx, hlo, hhi, hnumeric⟩ := h
      exact ⟨hsame (.cons hx (.cons hlo (.cons hhi .nil))), hnumeric⟩
  | smooth x tau | edge x rising =>
      cases hprimitive
      obtain ⟨hx, rfl⟩ := h
      exact ⟨hsame (.cons hx .nil), rfl⟩
  | rateLimit x rate =>
      cases hprimitive
      obtain ⟨hx, rfl, hrate⟩ := h
      exact ⟨hsame (.cons hx .nil), rfl, hrate⟩
  | pre x initial =>
      cases hprimitive
      obtain ⟨hx, hinitial⟩ := h
      exact ⟨hsame (.cons hx .nil), hinitial⟩
  | pack parts =>
      cases hprimitive
      obtain ⟨hdouble, rfl⟩ := h
      refine ⟨?_, ?_⟩
      · intro a ha
        obtain ⟨d, hd, hda⟩ := forall₂_exists_of_mem hkinds.flip ha
        rw [hdouble d hd] at hda
        exact (Except.ok.inj hda).symm
      · rw [← hkinds.length_eq]
        rfl
  | index x position =>
      cases hprimitive
      obtain ⟨a, length, hx, hlength, hposition, helement⟩ := h
      exact ⟨a, length, hsame (.cons hx .nil), hlength, hposition, helement⟩
  | compose c parts =>
      cases hprimitive
      obtain ⟨hparts, rfl⟩ := h
      exact ⟨hsame hparts, rfl⟩
  | custom c => cases hprimitive
  | _ => cases h

/-- **The primitive of a node accepts the kinds of the operands and the kind
of the node.** -/
theorem Pool.WellFormed.accepts {p : Pool α} (hp : p.WellFormed) {id : ExprId} {n : Node α}
    (hn : p.get? id = some n) {parameters : Parameters α} {primitive : Primitive α}
    (hprimitive : n.form.primitive? parameters = some primitive) {kinds : List Kind}
    (hkinds : List.Forall₂ (fun d k => p.kindOf d = .ok k) n.dependencies kinds) :
    primitive.Accepts kinds n.kind := by
  have hadmitted := hp.admitted hn
  cases hcomposite : n.form.isComposite with
  | true => exact Form.accepts_of_gives (infer_gives (hadmitted.typed hcomposite)) hprimitive hkinds
  | false =>
      have hnone : n.dependencies = [] := by
        cases hform : n.form <;> simp_all [Node.dependencies, Form.dependencies, Form.isComposite]
      rw [hnone] at hkinds
      cases hkinds
      exact (hadmitted.leaf hcomposite).accepts hcomposite hprimitive

end SignalNet
