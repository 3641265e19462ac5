import SignalNet.Operator.Eval

/-!
# Operators respect their kinds

An operator has a value exactly on operands of the kinds that its typing rule
accepts, and the value is of the kind that the rule gives.  The one exception
is the quotient of two integers, which may not exist (`Undivided`).

`evaluation_respects_kinds` says so for all operators, for the elements of
values, and for values that are packed or composed from parts.
-/

namespace SignalNet

variable {α : Type} [Scalar α]

theorem UnaryOp.eval?_kind (op : UnaryOp) (x : Value α) :
    (op.eval? x).map Value.kind = op.resultKind? x.kind := by
  cases op <;> cases x <;> simp [eval?, resultKind?, Value.kind]

theorem CompareOp.eval?_kind (op : CompareOp) (x y : Value α) :
    (op.eval? x y).map Value.kind = op.resultKind? x.kind y.kind := by
  cases x <;> cases y <;> cases op <;> rfl

/-- Two integers without a quotient. -/
def Undivided (m n : Int64) : Prop :=
  n = 0 ∨ m = Int64.minValue ∧ n = -1

theorem quotient?_eq_none {m n : Int64} (h : quotient? m n = none) : Undivided m n := by
  unfold quotient? at h
  split at h
  · assumption
  · cases h

omit [Scalar α] in
/-- Sums and differences of arrays keep the length, which must be the same. -/
theorem zipWith_kind (f : α → α → α) (xs ys : List α) :
    (if xs.length = ys.length then some (Value.array (List.zipWith f xs ys)) else none).map
        Value.kind =
      if xs.length = ys.length then some (Kind.array xs.length) else none := by
  by_cases h : xs.length = ys.length
  · simp [h, Value.kind]
  · simp [h]

/-- A binary operator has a value where its typing rule has a kind, unless it
divides integers that have no quotient. -/
theorem BinaryOp.eval?_kind (op : BinaryOp) (x y : Value α) :
    (op.eval? x y).map Value.kind = op.resultKind? x.kind y.kind ∨
      ∃ m n, op = .div ∧ x = .integer m ∧ y = .integer n ∧ Undivided m n ∧ op.eval? x y = none := by
  cases x <;> cases y <;> cases op
  case integer.integer.div m n =>
    cases hq : quotient? m n with
    | none => exact Or.inr ⟨m, n, rfl, rfl, rfl, quotient?_eq_none hq, by simp [eval?, hq]⟩
    | some q => exact Or.inl (by simp [eval?, hq, resultKind?, Value.kind])
  case array.array.add xs ys => exact Or.inl (zipWith_kind _ xs ys)
  case array.array.sub xs ys => exact Or.inl (zipWith_kind _ xs ys)
  case array.double.mul xs y => exact Or.inl (by simp [eval?, resultKind?, Value.kind])
  case array.double.div xs y => exact Or.inl (by simp [eval?, resultKind?, Value.kind])
  all_goals exact Or.inl rfl

/-- Bounds of the kind of the value give a value of that kind. -/
theorem Value.limit?_kind {x lo hi : Value α} (hnumeric : x.kind.isNumeric = true)
    (hlo : lo.kind = x.kind) (hhi : hi.kind = x.kind) :
    ∃ v, Value.limit? x lo hi = some v ∧ v.kind = x.kind := by
  cases x <;> cases lo <;> cases hi <;> simp_all [kind, Kind.isNumeric, limit?]

/-- An element exists at every position below the length of the kind. -/
theorem Value.index?_kind {x : Value α} {position length : Nat} {element : Kind}
    (hlength : x.kind.length? = some length) (helement : x.kind.element? = some element)
    (hposition : position < length) :
    ∃ v, x.index? position = some v ∧ v.kind = element := by
  cases x with
  | array xs =>
      simp only [kind, Kind.length?, Kind.element?, Option.some.injEq] at hlength helement
      subst hlength helement
      exact ⟨.double xs[position], by simp [index?, hposition], rfl⟩
  | vector v =>
      simp only [kind, Kind.length?, Kind.element?, Option.some.injEq] at hlength helement
      subst hlength helement
      obtain rfl | rfl | rfl : position = 0 ∨ position = 1 ∨ position = 2 := by omega
      · exact ⟨_, rfl, rfl⟩
      · exact ⟨_, rfl, rfl⟩
      · exact ⟨_, rfl, rfl⟩
  | transform p =>
      simp only [kind, Kind.length?, Kind.element?, Option.some.injEq] at hlength helement
      subst hlength helement
      obtain rfl | rfl : position = 0 ∨ position = 1 := by omega
      · exact ⟨_, rfl, rfl⟩
      · exact ⟨_, rfl, rfl⟩
  | _ => simp [kind, Kind.length?] at hlength

omit [Scalar α] in
theorem Value.asDouble?_of_kind {x : Value α} (h : x.kind = .double) :
    ∃ a, x = .double a := by
  cases x <;> simp_all [kind]

omit [Scalar α] in
theorem Value.asBoolean?_of_kind {x : Value α} (h : x.kind = .boolean) :
    ∃ b, x = .boolean b := by
  cases x <;> simp_all [kind]

omit [Scalar α] in
/-- Doubles make an array of their number. -/
theorem Value.pack?_kind {parts : List (Value α)} (h : ∀ x ∈ parts, x.kind = .double) :
    ∃ v, Value.pack? parts = some v ∧ v.kind = .array parts.length := by
  suffices hmap : ∃ xs, parts.mapM Value.asDouble? = some xs ∧ xs.length = parts.length by
    obtain ⟨xs, hxs, hlength⟩ := hmap
    exact ⟨.array xs, by simp [pack?, hxs], by simp [kind, hlength]⟩
  induction parts with
  | nil => exact ⟨[], rfl, rfl⟩
  | cons x rest ih =>
      obtain ⟨a, rfl⟩ := asDouble?_of_kind (h x (by simp))
      obtain ⟨xs, hxs, hlength⟩ := ih fun y hy => h y (by simp [hy])
      exact ⟨a :: xs, by simp [asDouble?, hxs], by simp [hlength]⟩

/-- Parts of the right kinds make a composed value. -/
theorem Value.compose?_kind {c : Composite} {parts : List (Value α)}
    (h : parts.map Value.kind = c.parts) :
    ∃ v, Value.compose? c parts = some v ∧ v.kind = c.kind := by
  cases c with
  | vector =>
      obtain ⟨a, _, rfl, ha, h₁⟩ := List.map_eq_cons_iff.mp h
      obtain ⟨b, _, rfl, hb, h₂⟩ := List.map_eq_cons_iff.mp h₁
      obtain ⟨c, _, rfl, hc, h₃⟩ := List.map_eq_cons_iff.mp h₂
      obtain rfl := List.map_eq_nil_iff.mp h₃
      obtain ⟨x, rfl⟩ := asDouble?_of_kind ha
      obtain ⟨y, rfl⟩ := asDouble?_of_kind hb
      obtain ⟨z, rfl⟩ := asDouble?_of_kind hc
      exact ⟨_, rfl, rfl⟩
  | transform =>
      obtain ⟨a, _, rfl, ha, h₁⟩ := List.map_eq_cons_iff.mp h
      obtain ⟨b, _, rfl, hb, h₂⟩ := List.map_eq_cons_iff.mp h₁
      obtain rfl := List.map_eq_nil_iff.mp h₂
      cases a <;> cases ha
      cases b <;> cases hb
      exact ⟨_, rfl, rfl⟩

omit [Scalar α] in
/-- A packed array consists of the doubles that its parts are. -/
theorem Value.eq_of_pack? {parts : List (Value α)} {v : Value α} (h : Value.pack? parts = some v) :
    ∃ xs : List α, parts = xs.map .double ∧ v = .array xs := by
  obtain ⟨xs, hxs, rfl⟩ := Option.map_eq_some_iff.mp h
  refine ⟨xs, ?_, rfl⟩
  clear h
  induction parts generalizing xs with
  | nil =>
      cases hxs
      rfl
  | cons x rest ih =>
      simp only [List.mapM_cons, Option.bind_eq_bind, Option.bind_eq_some_iff] at hxs
      obtain ⟨a, ha, as, has, hcons⟩ := hxs
      cases hcons
      cases x <;> cases ha
      rw [ih as has, List.map_cons]

/-- A composed value has parts of the right kinds, and its own kind. -/
theorem Value.kinds_of_compose? {c : Composite} {parts : List (Value α)} {v : Value α}
    (h : Value.compose? c parts = some v) : parts.map Value.kind = c.parts ∧ v.kind = c.kind := by
  unfold compose? at h
  split at h <;> cases h <;> exact ⟨rfl, rfl⟩

/-- An element has a position below the length of the kind, and the kind of
elements. -/
theorem Value.kinds_of_index? {x v : Value α} {position : Nat}
    (h : x.index? position = some v) :
    (∃ length, x.kind.length? = some length ∧ position < length) ∧
      x.kind.element? = some v.kind := by
  unfold index? at h
  split at h
  · obtain ⟨a, ha, rfl⟩ := Option.map_eq_some_iff.mp h
    obtain ⟨hposition, -⟩ := List.getElem?_eq_some_iff.mp ha
    exact ⟨⟨_, rfl, hposition⟩, rfl⟩
  · obtain ⟨a, ha, rfl⟩ := Option.map_eq_some_iff.mp h
    refine ⟨⟨3, rfl, ?_⟩, rfl⟩
    match position, ha with
    | 0, _ | 1, _ | 2, _ => omega
  · cases h
    exact ⟨⟨2, rfl, by omega⟩, rfl⟩
  · cases h
    exact ⟨⟨2, rfl, by omega⟩, rfl⟩
  · cases h

omit [Scalar α] in
/-- A boolean chooses one of two values of a kind. -/
theorem Value.select?_kind {c t f : Value α} {k : Kind} (hc : c.kind = .boolean)
    (ht : t.kind = k) (hf : f.kind = k) : ∃ v, Value.select? c t f = some v ∧ v.kind = k := by
  obtain ⟨b, rfl⟩ := asBoolean?_of_kind hc
  cases b with
  | true => exact ⟨t, rfl, ht⟩
  | false => exact ⟨f, rfl, hf⟩

/-! ### The rules and the values -/

omit [Scalar α] in
/-- There is a result, and it is of kind `k`. -/
def Value.Yields (result : Option (Value α)) (k : Kind) : Prop :=
  ∃ v, result = some v ∧ v.kind = k

omit [Scalar α] in
theorem Value.yields_iff {result : Option (Value α)} {k : Kind} :
    Yields result k ↔ result.map Value.kind = some k :=
  Option.map_eq_some_iff.symm

omit [Scalar α] in
/-- The operator divides two integers that have no quotient. -/
def BinaryOp.Undivides (op : BinaryOp) (x y : Value α) : Prop :=
  ∃ m n, op = .div ∧ x = .integer m ∧ y = .integer n ∧ Undivided m n

theorem BinaryOp.eval?_of_undivides {op : BinaryOp} {x y : Value α} (h : op.Undivides x y) :
    op.eval? x y = none := by
  obtain ⟨m, n, rfl, rfl, rfl, hundivided⟩ := h
  have hquotient : quotient? m n = none := if_pos hundivided
  simp [eval?, hquotient]

theorem BinaryOp.yields_iff {op : BinaryOp} {x y : Value α} {k : Kind} :
    Value.Yields (op.eval? x y) k ↔
      op.resultKind? x.kind y.kind = some k ∧ ¬ op.Undivides x y := by
  constructor
  · rintro ⟨v, hv, rfl⟩
    have hdivides : ¬ op.Undivides x y := by
      intro hundivides
      rw [eval?_of_undivides hundivides] at hv
      cases hv
    rcases op.eval?_kind x y with hkind | ⟨m, n, rfl, rfl, rfl, hundivided, -⟩
    · rw [hv] at hkind
      exact ⟨hkind.symm, hdivides⟩
    · exact absurd ⟨m, n, rfl, rfl, rfl, hundivided⟩ hdivides
  · rintro ⟨hk, hdivides⟩
    rcases op.eval?_kind x y with hkind | ⟨m, n, rfl, rfl, rfl, hundivided, -⟩
    · exact Value.yields_iff.mpr (hkind.trans hk)
    · exact absurd ⟨m, n, rfl, rfl, rfl, hundivided⟩ hdivides

theorem Value.index?_yields_iff {x : Value α} {position : Nat} {k : Kind} :
    Yields (x.index? position) k ↔
      (∃ length, x.kind.length? = some length ∧ position < length) ∧
        x.kind.element? = some k := by
  constructor
  · rintro ⟨v, hv, rfl⟩
    exact kinds_of_index? hv
  · rintro ⟨⟨length, hlength, hposition⟩, helement⟩
    exact index?_kind hlength helement hposition

theorem Value.compose?_yields_iff {c : Composite} {parts : List (Value α)} {k : Kind} :
    Yields (Value.compose? c parts) k ↔ parts.map Value.kind = c.parts ∧ k = c.kind := by
  constructor
  · rintro ⟨v, hv, rfl⟩
    exact kinds_of_compose? hv
  · rintro ⟨hparts, rfl⟩
    exact compose?_kind hparts

omit [Scalar α] in
theorem Value.pack?_yields_iff {parts : List (Value α)} {k : Kind} :
    Yields (Value.pack? parts) k ↔
      (∀ x ∈ parts, x.kind = .double) ∧ k = .array parts.length := by
  constructor
  · rintro ⟨v, hv, rfl⟩
    obtain ⟨xs, rfl, rfl⟩ := eq_of_pack? hv
    refine ⟨?_, by rw [kind, List.length_map]⟩
    intro x hx
    obtain ⟨a, -, rfl⟩ := List.mem_map.mp hx
    rfl
  · rintro ⟨hdoubles, rfl⟩
    exact pack?_kind hdoubles

/-- **Typing and evaluation agree.**

* An operator with one operand and a comparison have a value exactly where
  their typing rules give a kind, and the value is of that kind;
* so has an operator with two operands, unless it divides an integer by zero or
  the least integer by minus one;
* an element exists exactly at the positions below the length of the kind, and
  is of the kind of elements;
* parts compose exactly if they are of the kinds that the composed kind
  demands;
* parts are packed exactly if all of them are doubles, to an array of their
  number. -/
theorem evaluation_respects_kinds :
    (∀ (op : UnaryOp) (x : Value α) (k : Kind),
      Value.Yields (op.eval? x) k ↔ op.resultKind? x.kind = some k) ∧
    (∀ (op : CompareOp) (x y : Value α) (k : Kind),
      Value.Yields (op.eval? x y) k ↔ op.resultKind? x.kind y.kind = some k) ∧
    (∀ (op : BinaryOp) (x y : Value α) (k : Kind),
      Value.Yields (op.eval? x y) k ↔
        op.resultKind? x.kind y.kind = some k ∧
          ¬ ∃ m n, op = .div ∧ x = .integer m ∧ y = .integer n ∧
            (n = 0 ∨ m = Int64.minValue ∧ n = -1)) ∧
    (∀ (x : Value α) (position : Nat) (k : Kind),
      Value.Yields (x.index? position) k ↔
        (∃ length, x.kind.length? = some length ∧ position < length) ∧
          x.kind.element? = some k) ∧
    (∀ (c : Composite) (parts : List (Value α)) (k : Kind),
      Value.Yields (Value.compose? c parts) k ↔ parts.map Value.kind = c.parts ∧ k = c.kind) ∧
    ∀ (parts : List (Value α)) (k : Kind),
      Value.Yields (Value.pack? parts) k ↔
        (∀ x ∈ parts, x.kind = .double) ∧ k = .array parts.length := by
  refine ⟨?_, ?_, fun _ _ _ _ => BinaryOp.yields_iff, fun _ _ _ => Value.index?_yields_iff,
    fun _ _ _ => Value.compose?_yields_iff, fun _ _ => Value.pack?_yields_iff⟩
  · intro op x k
    rw [Value.yields_iff, op.eval?_kind]
  · intro op x y k
    rw [Value.yields_iff, op.eval?_kind]

end SignalNet
