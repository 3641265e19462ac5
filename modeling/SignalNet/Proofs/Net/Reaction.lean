import SignalNet.Net.Reaction
import SignalNet.Proofs.Computation
import SignalNet.Proofs.Operator

/-!
# Reactions taken apart

A reaction is one of three things: it is written out for the arguments, it is
the value of an operator, which may not exist, or it is made in two steps from
the booleans that the arguments are.  The first kind reduces by itself.

* `operator_eq_ok` is the inversion for operators, and `operator_reacts` its
  converse with the kind of the value.
* `Primitive.react_connective_eq_ok` is the inversion for conjunctions and
  disjunctions: all arguments are booleans.
-/

namespace SignalNet

open Computing

variable {α : Type}

/-! ### Operators -/

theorem orRejected_map_eq_ok {β γ : Type} {x : Option β} {f : β → γ} {c : γ} :
    (orRejected x).map f = .ok c ↔ ∃ b, x = some b ∧ f b = c := by
  cases x <;> simp [orRejected, Except.map]

/-- An operator reacts with its value, and remembers nothing. -/
theorem operator_eq_ok {x : Option (Value α)} {v : Value α} {m : Option (Memory α)} :
    (orRejected x).map (·, (none : Option (Memory α))) = .ok (v, m) ↔ x = some v ∧ m = none := by
  rw [orRejected_map_eq_ok]
  constructor
  · rintro ⟨_, hx, ⟨⟩⟩
    exact ⟨hx, rfl⟩
  · rintro ⟨hx, rfl⟩
    exact ⟨v, hx, rfl⟩

/-- An operator with a value of some kind reacts with one. -/
theorem operator_reacts {x : Option (Value α)} {kind : Kind} (h : ∃ v, x = some v ∧ v.kind = kind) :
    ∃ (v : Value α) (m : Option (Memory α)),
      (orRejected x).map (·, none) = .ok (v, m) ∧ v.kind = kind := by
  obtain ⟨v, hv, hkind⟩ := h
  exact ⟨v, none, operator_eq_ok.mpr ⟨hv, rfl⟩, hkind⟩

/-! ### Conjunctions and disjunctions -/

theorem Value.asBoolean?_eq_some {x : Value α} {b : Bool} :
    x.asBoolean? = some b ↔ x = .boolean b := by
  cases x <;> simp [asBoolean?]

/-- Values are read as booleans if they are booleans. -/
theorem mapM_asBoolean?_eq_some {args : List (Value α)} {bs : List Bool} :
    args.mapM Value.asBoolean? = some bs ↔ args = bs.map .boolean := by
  rw [mapM_some_iff_forall₂]
  simp only [Value.asBoolean?_eq_some]
  constructor
  · intro h
    induction h with
    | nil => rfl
    | cons hx _ ih => rw [hx, ih, List.map_cons]
  · rintro rfl
    induction bs with
    | nil => exact .nil
    | cons b bs ih => exact .cons rfl ih

/-- Arguments of boolean kind are booleans. -/
theorem exists_booleans {args : List (Value α)} (h : ∀ x ∈ args, x.kind = .boolean) :
    ∃ bs : List Bool, args = bs.map .boolean := by
  induction args with
  | nil => exact ⟨[], rfl⟩
  | cons x rest ih =>
      obtain ⟨b, rfl⟩ := Value.asBoolean?_of_kind (h x (by simp))
      obtain ⟨bs, rfl⟩ := ih fun y hy => h y (by simp [hy])
      exact ⟨b :: bs, rfl⟩

namespace Primitive

/-- What a conjunction or a disjunction makes of booleans. -/
def connective? : Primitive α → Option (List Bool → Bool)
  | allOf => some (·.all id)
  | anyOf => some (·.any id)
  | _ => none

/-- A connective reacts to booleans only. -/
theorem react_connective_eq_ok [Scalar α] {primitive : Primitive α} {f : List Bool → Bool}
    (hf : primitive.connective? = some f) {around : Surroundings α} {kind : Kind}
    {memory m : Option (Memory α)} {args : List (Value α)} {v : Value α} :
    primitive.react around kind memory args = .ok (v, m) ↔
      ∃ bs : List Bool, args = bs.map .boolean ∧ v = .boolean (f bs) ∧ m = none := by
  have hreact : primitive.react around kind memory args =
      (orRejected (args.mapM Value.asBoolean?)).map fun bs => (.boolean (f bs), none) := by
    cases primitive <;> cases hf
    all_goals
      simp only [react]
      cases args.mapM Value.asBoolean? <;> rfl
  rw [hreact, orRejected_map_eq_ok]
  simp only [mapM_asBoolean?_eq_some, Prod.mk.injEq, @eq_comm _ v, @eq_comm _ m]

end Primitive

end SignalNet
