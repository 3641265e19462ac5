import SignalNet.Proofs.Compile.Calls
import SignalNet.Proofs.Compile.Meaning
import SignalNet.Proofs.Motion.Scale
import SignalNet.Proofs.Scalar.Zeros

/-!
# Shared constants

A session has one block for all constants that are structurally equal, and a pool
one literal.  What stands there is the first of them that was asked for.  So a
constant that is asked for later is carried by another one, and the question is
how far that one can be off.

* `Value.canonical_eq_iff` answers it: values that are structurally equal resemble
  each other (`Value.Resembles`).  They are equal component by component, but for
  the signs of zeros.
* `Session.constPorts_carry` follows a sequence of requests.  Each constant is
  carried by the first request that is structurally equal, or by what the session
  had carried for that.
* `Program.constants_resemble` is the result, for sessions and for pools, whatever
  has been called before and is called later.

The exception is real: `Program.zeros_share` asks for both zeros.
-/

namespace SignalNet

open Computing

section Values

variable {α : Type} [Scalar α]

/-! ### Equality up to the signs of zeros -/

/-- Scalars that are equal, or zeros both. -/
def Scalar.Resembles (a b : α) : Prop :=
  a = b ∨ Scalar.eqv a 0 = true ∧ Scalar.eqv b 0 = true

/-- Vectors that are equal up to the signs of zeros. -/
structure Vec3.Resembles (v w : Vec3 α) : Prop where
  x : Scalar.Resembles v.x w.x
  y : Scalar.Resembles v.y w.y
  z : Scalar.Resembles v.z w.z

/-- Quaternions that are equal up to the signs of zeros. -/
structure Quaternion.Resembles (q r : Quaternion α) : Prop where
  i : Scalar.Resembles q.i r.i
  j : Scalar.Resembles q.j r.j
  k : Scalar.Resembles q.k r.k
  w : Scalar.Resembles q.w r.w

/-- Values that are equal up to the signs of zeros.  Booleans and integers are
equal. -/
inductive Value.Resembles : Value α → Value α → Prop
  | double {a b : α} (h : Scalar.Resembles a b) : Resembles (.double a) (.double b)
  | boolean (b : Bool) : Resembles (.boolean b) (.boolean b)
  | integer (n : Int64) : Resembles (.integer n) (.integer n)
  | array {as bs : List α} (h : List.Forall₂ Scalar.Resembles as bs) :
      Resembles (.array as) (.array bs)
  | vector {v w : Vec3 α} (h : v.Resembles w) : Resembles (.vector v) (.vector w)
  | transform {p q : Pose α} (hposition : p.position.Resembles q.position)
      (hrotation : p.rotation.Resembles q.rotation) : Resembles (.transform p) (.transform q)

variable (laws : Scalar.ZeroLaws α)

include laws

theorem Scalar.canonical_eq_iff {a b : α} :
    Scalar.canonical a = Scalar.canonical b ↔ Scalar.Resembles a b := by
  rw [← Scalar.same_iff]
  constructor
  · exact laws.eq_or_zeros
  · rintro (rfl | ⟨ha, hb⟩)
    · exact Scalar.same_iff.mpr rfl
    · have hleft := Scalar.same_iff.mp (laws.same_of_eqv ha)
      have hright := Scalar.same_iff.mp (laws.same_of_eqv hb)
      exact Scalar.same_iff.mpr (hleft.trans hright.symm)

theorem Vec3.map_canonical_eq_iff {v w : Vec3 α} :
    v.map Scalar.canonical = w.map Scalar.canonical ↔ v.Resembles w := by
  simp only [Vec3.map, Vec3.mk.injEq, Scalar.canonical_eq_iff laws]
  constructor
  · rintro ⟨hx, hy, hz⟩
    exact ⟨hx, hy, hz⟩
  · rintro ⟨hx, hy, hz⟩
    exact ⟨hx, hy, hz⟩

theorem Quaternion.map_canonical_eq_iff {q r : Quaternion α} :
    q.map Scalar.canonical = r.map Scalar.canonical ↔ q.Resembles r := by
  simp only [Quaternion.map, Quaternion.mk.injEq, Scalar.canonical_eq_iff laws]
  constructor
  · rintro ⟨hi, hj, hk, hw⟩
    exact ⟨hi, hj, hk, hw⟩
  · rintro ⟨hi, hj, hk, hw⟩
    exact ⟨hi, hj, hk, hw⟩

theorem Scalar.map_canonical_eq_iff {as bs : List α} :
    as.map Scalar.canonical = bs.map Scalar.canonical ↔
      List.Forall₂ Scalar.Resembles as bs := by
  rw [← List.forall₂_eq_eq_eq, List.forall₂_map_left_iff, List.forall₂_map_right_iff]
  simp only [Scalar.canonical_eq_iff laws]

/-- **Structurally equal values** are those that resemble each other. -/
theorem Value.canonical_eq_iff {v w : Value α} :
    v.canonical = w.canonical ↔ v.Resembles w := by
  constructor
  · intro h
    cases v with
    | double a =>
        cases w with
        | double b => exact .double ((Scalar.canonical_eq_iff laws).mp (Value.double.inj h))
        | _ => cases h
    | boolean b =>
        cases w with
        | boolean c =>
            cases h
            exact .boolean b
        | _ => cases h
    | integer n =>
        cases w with
        | integer m =>
            cases h
            exact .integer n
        | _ => cases h
    | array as =>
        cases w with
        | array bs => exact .array ((Scalar.map_canonical_eq_iff laws).mp (Value.array.inj h))
        | _ => cases h
    | vector v =>
        cases w with
        | vector w => exact .vector ((Vec3.map_canonical_eq_iff laws).mp (Value.vector.inj h))
        | _ => cases h
    | transform p =>
        cases w with
        | transform q =>
            obtain ⟨hposition, hrotation⟩ := Pose.mk.inj (Value.transform.inj h)
            exact .transform ((Vec3.map_canonical_eq_iff laws).mp hposition)
              ((Quaternion.map_canonical_eq_iff laws).mp hrotation)
        | _ => cases h
  · intro h
    cases h with
    | double h => exact congrArg Value.double ((Scalar.canonical_eq_iff laws).mpr h)
    | boolean b => rfl
    | integer n => rfl
    | array h => exact congrArg Value.array ((Scalar.map_canonical_eq_iff laws).mpr h)
    | vector h => exact congrArg Value.vector ((Vec3.map_canonical_eq_iff laws).mpr h)
    | transform hposition hrotation =>
        exact congrArg Value.transform (congrArg₂ Pose.mk
          ((Vec3.map_canonical_eq_iff laws).mpr hposition)
          ((Quaternion.map_canonical_eq_iff laws).mpr hrotation))

end Values

/-! ### The first request -/

/-- The first of several values that is structurally equal to a value, which
stands for itself if there is none. -/
def Value.firstOf {α : Type} [Scalar α] (vs : List (Value α)) (v : Value α) : Value α :=
  (vs.find? v.same).getD v

namespace Value

variable {α : Type} [Scalar α]

theorem same_iff {v w : Value α} : v.same w = true ↔ v.canonical = w.canonical :=
  decide_eq_true_iff

theorem firstOf_cons (u : Value α) (vs : List (Value α)) (v : Value α) :
    firstOf (u :: vs) v = if v.same u = true then u else firstOf vs v := by
  unfold firstOf
  rw [List.find?_cons]
  split <;> simp_all

theorem canonical_firstOf (vs : List (Value α)) (v : Value α) :
    (firstOf vs v).canonical = v.canonical := by
  induction vs with
  | nil => rfl
  | cons u rest ih =>
      rw [firstOf_cons]
      split
      · next hsame => exact (same_iff.mp hsame).symm
      · exact ih

theorem firstOf_mem (vs : List (Value α)) (v : Value α) :
    firstOf vs v = v ∨ firstOf vs v ∈ vs := by
  unfold firstOf
  cases hfind : vs.find? v.same with
  | some u => exact Or.inr (List.mem_of_find?_eq_some hfind)
  | none => exact Or.inl rfl

end Value

namespace Session

variable {α : Type} [Scalar α] {program : Program α} {P : ExprId → Prop} {s s' : Session α}

/-! ### Requests -/

/-- What a session carries for a constant that has a port. -/
theorem Truthful.carried_spec (h : Truthful program P s) {v : Value α} {q : PortId}
    (hq : s.constants.get? v.canonical = some q) :
    (s.carried v).canonical = v.canonical ∧
      s.fragment.Makes q (.constant (s.carried v)) [] (s.carried v).kind := by
  obtain ⟨w, hw, hmakes⟩ := h.constants hq
  rw [carried_eq hq hmakes.constantAt?]
  exact ⟨hw, hmakes⟩

/-- **A request is granted**, and the session goes on. -/
theorem Truthful.grants (h : Truthful program P s) (v : Value α) :
    ∃ q s', constPort v s = .ok q s' ∧ Truthful program P s' ∧ s.Upholds P s' := by
  obtain ⟨q, s', hrun⟩ := constPort_total v s
  have hstep : Preserves program P s _ := preserves_constPort v s
  rw [hrun] at hstep
  exact ⟨q, s', hrun, hstep h⟩

/-- **One request** makes the constant stand for those that are structurally
equal, unless one has a port. -/
theorem constPort_carries (h : Truthful program P s) {u : Value α} {q : PortId}
    (hrun : constPort u s = .ok q s') (v : Value α) :
    s'.carried v = s.carried (if v.same u = true then u else v) := by
  by_cases hsame : v.same u = true
  · have hequal : v.canonical = u.canonical := Value.same_iff.mp hsame
    rw [if_pos hsame]
    rcases constPort_cases h.wellFormed hrun with ⟨hfound, rfl⟩ | ⟨hnone, f, hadded, rfl⟩
    · obtain ⟨-, hmakes⟩ := h.carried_spec hfound
      exact carried_eq (hequal ▸ hfound) hmakes.constantAt?
    · rw [carried_of_none hnone]
      exact carried_eq (hequal ▸ Table.get?_insert_self _ _ _) hadded.makes.constantAt?
  · have hne : v.canonical ≠ u.canonical := fun heq => hsame (Value.same_iff.mpr heq)
    rw [if_neg hsame]
    rcases constPort_cases h.wellFormed hrun with ⟨-, rfl⟩ | ⟨-, f, hadded, rfl⟩
    · rfl
    · have hkept : (s.constants.insert u.canonical q).get? v.canonical =
          s.constants.get? v.canonical := Table.get?_insert_of_ne _ _ hne
      cases hfind : s.constants.get? v.canonical with
      | some r =>
          obtain ⟨-, hmakes⟩ := h.carried_spec hfind
          exact carried_eq (hkept.trans hfind) (hmakes.extend hadded.extends).constantAt?
      | none => rw [carried_of_none hfind, carried_of_none (hkept.trans hfind)]

/-- **A sequence of requests.**  All are granted, and every constant is carried as
the first of them that is structurally equal would have been. -/
theorem constPorts_carry (h : Truthful program P s) (vs : List (Value α)) :
    ∃ ports s', vs.mapM constPort s = .ok ports s' ∧ Truthful program P s' ∧ s.Upholds P s' ∧
      ∀ v, s'.carried v = s.carried (Value.firstOf vs v) := by
  induction vs generalizing s with
  | nil => exact ⟨[], s, rfl, h, Upholds.refl P s, fun _ => rfl⟩
  | cons u rest ih =>
      obtain ⟨q, s₁, hfirst, h₁, hs₁⟩ := h.grants u
      obtain ⟨ports, s₂, hrest, h₂, hs₂, hcarried⟩ := ih h₁
      refine ⟨q :: ports, s₂, ?_, h₂, hs₁.trans hs₂, ?_⟩
      · rw [List.mapM_cons]
        exact bind_eq_ok.mpr ⟨_, _, hfirst, bind_eq_ok.mpr ⟨_, _, hrest, rfl⟩⟩
      · intro v
        have hsame : (Value.firstOf rest v).same u = v.same u := by
          unfold Value.same
          rw [Value.canonical_firstOf]
        rw [hcarried, constPort_carries h hfirst, Value.firstOf_cons, hsame]

/-- **The port of a request** after a sequence of others.  Behind it is the request
itself, an earlier one, or what had been behind it before all of them. -/
theorem constPort_granted (h : Truthful program P s) (vs : List (Value α)) (v : Value α) :
    ∃ ports s₁ q s', vs.mapM constPort s = .ok ports s₁ ∧ constPort v s₁ = .ok q s' ∧
      Truthful program P s' ∧ ∃ w, w.canonical = v.canonical ∧
        (w = v ∨ w ∈ vs ∨ s.fragment.Makes q (.constant w) [] w.kind) ∧
        s'.fragment.Makes q (.constant w) [] w.kind := by
  obtain ⟨ports, s₁, hvs, h₁, hs₁, hcarried⟩ := constPorts_carry h vs
  obtain ⟨q, s', hv, h', hs'⟩ := h₁.grants v
  have hq : s'.constants.get? v.canonical = some q := constPort_entered h₁.wellFormed hv
  obtain ⟨hcanonical, hmakes⟩ := h'.carried_spec hq
  refine ⟨ports, s₁, q, s', hvs, hv, h', s'.carried v, hcanonical, ?_, hmakes⟩
  have hlast : s'.carried v = s.carried (Value.firstOf vs v) := by
    rw [constPort_carries h₁ hv, if_pos (Value.same_iff.mpr rfl), hcarried]
  rw [hlast]
  cases hfound : s.constants.get? (Value.firstOf vs v).canonical with
  | some r =>
      -- The port that structurally equal constants had is the one that is granted.
      have hr := hs'.constants (hs₁.constants hfound)
      rw [Value.canonical_firstOf, hq] at hr
      obtain rfl := Option.some.inj hr
      exact Or.inr (Or.inr (h.carried_spec hfound).2)
  | none =>
      rw [carried_of_none hfound]
      exact (Value.firstOf_mem vs v).imp_right Or.inl

end Session

namespace Pool

variable {α : Type} [Scalar α]

/-! ### Literals -/

/-- A literal is carried by one that is structurally equal.  If that is another
one, it has been there. -/
theorem constant_carries (v : Value α) {p : Pool α} (hp : p.WellFormed) :
    ∃ id q w, constant v p = .ok id q ∧ q.literal? id = some w ∧ w.canonical = v.canonical ∧
      (w = v ∨ p.literal? id = some w) := by
  obtain ⟨id, q, hrun⟩ := intern_total ⟨.constant v, v.kind, .global, true⟩ p
  obtain ⟨w, hliteral, hcanonical⟩ := (intern_holds hp hrun).literal?_eq_some
  refine ⟨id, q, w, hrun, hliteral, hcanonical, ?_⟩
  unfold intern at hrun
  split at hrun
  · cases hrun
    exact Or.inr hliteral
  · cases hrun
    have hnew : (p.push ⟨.constant v, v.kind, .global, true⟩).literal? p.size = some v := by
      simp only [literal?, form?, get?_push_self]
      rfl
    exact Or.inl (Option.some.inj (hliteral.symm.trans hnew))

end Pool

/-- **Sharing changes no more than the signs of zeros.**  Let constants be asked
for in a session of any history, or a literal in a pool.  The request is granted.
The constant that is found there from now on, whatever is called later, resembles
the one that was asked for.  It is that one, unless the other has been asked for
before or has been there before. -/
theorem Program.constants_resemble {program : Program Float} (hp : program.pool.Reachable) :
    (∀ (calls : List (Session.Call Float)) (vs : List (Value Float)) (v : Value Float),
      ∃ ports s₁ q s', vs.mapM Session.constPort (Session.performAll program calls .empty) =
          .ok ports s₁ ∧ Session.constPort v s₁ = .ok q s' ∧
        ∃ w : Value Float, w.Resembles v ∧
          (w = v ∨ w ∈ vs ∨ (Session.performAll program calls .empty).fragment.Makes q
            (.constant w) [] w.kind) ∧
          ∀ later, (Session.performAll program later s').fragment.Makes q
            (.constant w) [] w.kind) ∧
    ∀ v : Value Float, ∃ id q, Pool.constant v program.pool = .ok id q ∧
      ∃ w : Value Float, w.Resembles v ∧ (w = v ∨ program.pool.literal? id = some w) ∧
        ∀ later, (Pool.performAll later q).literal? id = some w := by
  have hpool := hp.wellFormed
  constructor
  · intro calls vs v
    -- No expression has to keep its port; the constants are accounted for anyway.
    have hpreserves : ∀ (calls : List (Session.Call Float)) (s : Session Float),
        Session.Preserves program (fun _ => False) s (Session.performAll program calls s) :=
      Session.performAll_preserves hpool (fun _ _ _ _ hid => hid.elim)
        ⟨fun hid => hid.elim, fun hid => hid.elim⟩
    obtain ⟨hs, -⟩ := hpreserves calls .empty Session.truthful_empty
    obtain ⟨ports, s₁, q, s', hvs, hv, hs', w, hcanonical, horigin, hmakes⟩ :=
      Session.constPort_granted hs vs v
    refine ⟨ports, s₁, q, s', hvs, hv, w, (Value.canonical_eq_iff Double.zeroLaws).mp hcanonical,
      horigin, fun later => ?_⟩
    obtain ⟨-, hupholds⟩ := hpreserves later s' hs'
    exact hmakes.extend hupholds.fragment
  · intro v
    obtain ⟨id, q, w, hrun, hliteral, hcanonical, horigin⟩ :=
      Pool.constant_carries v hpool
    refine ⟨id, q, hrun, w, (Value.canonical_eq_iff Double.zeroLaws).mp hcanonical, horigin,
      fun later => ?_⟩
    obtain ⟨hq, -⟩ := (Pool.constant_sound v).grown hpool hrun
    obtain ⟨-, hextends⟩ := Pool.performAll_grows later q hq
    exact hextends.literal? hliteral

/-- The origin, as an expression. -/
def Sample.origin : Program Float :=
  { pool := Pool.performAll [.constant (.vector ⟨0, 0, 0⟩)] { folding := true }
    rules := .standard
    parameters := {}
    settings := .standard
    host := .offline }

/-- What is behind the port of a constant that is asked for after others. -/
def Sample.behind? (vs : List (Value Float)) (v : Value Float) : Option (Value Float) :=
  match vs.mapM Session.constPort .empty with
  | .error _ _ => none
  | .ok _ s =>
    match Session.constPort v s with
    | .error _ _ => none
    | .ok q s' => s'.fragment.constantAt? q

theorem Sample.behind?_eq {vs : List (Value Float)} {v : Value Float} {ports : List PortId}
    {s s' : Session Float} {q : PortId} (hvs : vs.mapM Session.constPort .empty = .ok ports s)
    (hv : Session.constPort v s = .ok q s') :
    Sample.behind? vs v = s'.fragment.constantAt? q := by
  unfold Sample.behind?
  simp only [hvs, hv]

/-- The literal that stands for a value. -/
def Sample.literal? (p : Pool Float) (v : Value Float) : Option (Value Float) :=
  match Pool.constant v p with
  | .error _ _ => none
  | .ok id q => q.literal? id

theorem Sample.literal?_eq {p q : Pool Float} {v : Value Float} {id : ExprId}
    (hrun : Pool.constant v p = .ok id q) : Sample.literal? p v = q.literal? id := by
  unfold Sample.literal?
  simp only [hrun]

/-- The negative zero stays behind the port that is granted for the other one, and
the origin stands for its mirror image. -/
theorem Program.zeros_resemble :
    (∃ ports s₁ q s', [.double (-0), .boolean true].mapM Session.constPort .empty =
        .ok ports s₁ ∧ Session.constPort (.double 0) s₁ = .ok q s' ∧
      ∀ later, (Session.performAll Sample.origin later s').fragment.Makes q
        (.constant (.double (-0))) [] .double) ∧
    ∃ id q, Pool.constant (.vector ⟨-0, -0, -0⟩) Sample.origin.pool = .ok id q ∧
      ∀ later, (Pool.performAll later q).literal? id = some (.vector ⟨0, 0, 0⟩) := by
  obtain ⟨hsession, hpool⟩ := @Program.constants_resemble Sample.origin ⟨true, _, rfl⟩
  constructor
  · obtain ⟨ports, s₁, q, s', hvs, hv, w, -, -, hmakes⟩ :=
      hsession [] [.double (-0), .boolean true] (.double 0)
    have hbehind : Sample.behind? [.double (-0), .boolean true] (.double 0) =
        some (.double (-0)) := by decide +kernel
    rw [Sample.behind?_eq hvs hv] at hbehind
    obtain rfl := Option.some.inj ((hmakes []).constantAt?.symm.trans hbehind)
    exact ⟨ports, s₁, q, s', hvs, hv, hmakes⟩
  · obtain ⟨id, q, hrun, w, -, -, hlater⟩ := hpool (.vector ⟨-0, -0, -0⟩)
    have hliteral : Sample.literal? Sample.origin.pool (.vector ⟨-0, -0, -0⟩) =
        some (.vector ⟨0, 0, 0⟩) := by decide +kernel
    rw [Sample.literal?_eq hrun] at hliteral
    obtain rfl := Option.some.inj ((hlater []).symm.trans hliteral)
    exact ⟨id, q, hrun, hlater⟩

/-- Neither a session nor a pool carries every constant bit for bit: where the
zero has been asked for, it stands for the negative zero. -/
theorem Program.zeros_share :
    (¬ ∀ (vs : List (Value Float)) (v : Value Float), ∃ ports s₁ q s',
      vs.mapM Session.constPort .empty = .ok ports s₁ ∧ Session.constPort v s₁ = .ok q s' ∧
        s'.fragment.constantAt? q = some v) ∧
    ¬ ∀ p : Pool Float, p.Reachable → ∀ v, ∃ id q, Pool.constant v p = .ok id q ∧
      q.literal? id = some v := by
  have hne : (Value.double (-0) : Value Float) ≠ .double 0 := by decide +kernel
  constructor
  · intro hclaim
    obtain ⟨ports, s₁, q, s', hvs, hv, hcarried⟩ := hclaim [.double 0] (.double (-0))
    have hbehind : Sample.behind? [.double 0] (.double (-0)) = some (.double 0) := by
      decide +kernel
    rw [Sample.behind?_eq hvs hv, hcarried] at hbehind
    exact hne (Option.some.inj hbehind)
  · intro hclaim
    obtain ⟨id, q, hrun, hcarried⟩ := hclaim
      (Pool.performAll [.constant (.double 0)] { folding := true }) ⟨true, _, rfl⟩ (.double (-0))
    have hliteral : Sample.literal? (Pool.performAll [.constant (.double 0)] { folding := true })
        (.double (-0)) = some (.double 0) := by decide +kernel
    rw [Sample.literal?_eq hrun, hcarried] at hliteral
    exact hne (Option.some.inj hliteral)

end SignalNet
