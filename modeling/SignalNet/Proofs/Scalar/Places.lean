import SignalNet.Proofs.Scalar.Rounding

/-!
# Doubles on the number line

A double that is no NaN has a place on the number line, which is an integer if
the least positive double is the unit; infinities are one step beyond the
other doubles.  Doubles are compared by their places (`Double.compare?_eq`).

Sums are rounded, but they cross neither zero nor an operand
(`Double.place_add`).  A step that is kept within a stride thus never goes
the wrong way, in double precision either: `Double.step_up` and
`Double.step_down` hold of all doubles, with infinities and NaNs among them,
as long as the stride is not below zero.  A stride below zero is taken
whatever the way is (`Double.limit_back`).
-/

namespace SignalNet.Double

open Float.Model Float.Model.UnpackedFloat

/-! ### Places -/

/-- The place of a double on the number line, in steps of the least positive
double. -/
def place : UnpackedFloat → Option Int
  | .notANumber => none
  | .infinity s => some (s.apply beyond)
  | .zero _ => some 0
  | .finite s m e _ => some (s.apply (size m e))

theorem place_pack {z : UnpackedFloat} (h : Regular z) :
    place (Float.Model.pack z).unpack = place z := by
  rw [unpack_pack h]

theorem compare_natCast (m n : Nat) : compare (m : Int) n = compare m n := by
  rcases lt_trichotomy m n with h | rfl | h
  · rw [compare_lt_iff_lt.mpr h, compare_lt_iff_lt.mpr (Int.ofNat_lt.mpr h)]
  · rw [compare_eq_iff_eq.mpr rfl, compare_eq_iff_eq.mpr rfl]
  · rw [compare_gt_iff_gt.mpr h, compare_gt_iff_gt.mpr (Int.ofNat_lt.mpr h)]

theorem compare_neg (p q : Int) : compare (-p) (-q) = (compare p q).swap := by
  rcases lt_trichotomy p q with h | rfl | h
  · rw [compare_lt_iff_lt.mpr h, compare_gt_iff_gt.mpr (Int.neg_lt_neg h)]
    rfl
  · rw [compare_eq_iff_eq.mpr rfl, compare_eq_iff_eq.mpr rfl]
    rfl
  · rw [compare_gt_iff_gt.mpr h, compare_lt_iff_lt.mpr (Int.neg_lt_neg h)]
    rfl

/-- The comparison of two places. -/
def comparePlaces (x y : UnpackedFloat) : Option Ordering :=
  (place x).bind fun p => (place y).map (compare p)

section Places

variable {x y : UnpackedFloat} {p q : Int} (hp : place x = some p) (hq : place y = some q)

include hp hq

theorem comparePlaces_eq : comparePlaces x y = some (compare p q) := by
  rw [comparePlaces, hp, hq]
  rfl

theorem comparePlaces_lt (h : p < q) : comparePlaces x y = some .lt := by
  rw [comparePlaces_eq hp hq, compare_lt_iff_lt.mpr h]

theorem comparePlaces_gt (h : q < p) : comparePlaces x y = some .gt := by
  rw [comparePlaces_eq hp hq, compare_gt_iff_gt.mpr h]

end Places

/-- **Doubles are compared by their places.** -/
theorem compare_place {x y : UnpackedFloat} (hx : Regular x) (hy : Regular y) :
    x.compare y = comparePlaces x y := by
  have hbeyond : (0 : Int) < beyond := Int.ofNat_lt.mpr beyond_pos
  symm
  cases x with
  | notANumber => rfl
  | infinity s =>
      cases y with
      | notANumber => cases s <;> rfl
      | infinity t =>
          cases s <;> cases t
          · exact (comparePlaces_eq rfl rfl).trans (congrArg some (compare_eq_iff_eq.mpr rfl))
          · exact comparePlaces_lt rfl rfl (by simp only [Sign.apply]; omega)
          · exact comparePlaces_gt rfl rfl (by simp only [Sign.apply]; omega)
          · exact (comparePlaces_eq rfl rfl).trans (congrArg some (compare_eq_iff_eq.mpr rfl))
      | zero t =>
          cases s
          · exact comparePlaces_lt rfl rfl (by simp only [Sign.apply]; omega)
          · exact comparePlaces_gt rfl rfl hbeyond
      | finite t n d hn =>
          have hsize := Digits.size_lt hy
          cases s
          · exact comparePlaces_lt rfl rfl (by cases t <;> simp only [Sign.apply] <;> omega)
          · exact comparePlaces_gt rfl rfl (by cases t <;> simp only [Sign.apply] <;> omega)
  | zero s =>
      cases y with
      | notANumber => rfl
      | infinity t =>
          cases t
          · exact comparePlaces_gt rfl rfl (by simp only [Sign.apply]; omega)
          · exact comparePlaces_lt rfl rfl hbeyond
      | zero t => rfl
      | finite t n d hn =>
          have hpos := size_pos hn d
          cases t
          · exact comparePlaces_gt rfl rfl (by simp only [Sign.apply]; omega)
          · exact comparePlaces_lt rfl rfl (by simp only [Sign.apply]; omega)
  | finite s m e hm =>
      have hpos := size_pos hm e
      have hsize := Digits.size_lt hx
      cases y with
      | notANumber => cases s <;> rfl
      | infinity t =>
          cases t
          · exact comparePlaces_gt rfl rfl (by cases s <;> simp only [Sign.apply] <;> omega)
          · exact comparePlaces_lt rfl rfl (by cases s <;> simp only [Sign.apply] <;> omega)
      | zero t =>
          cases s
          · exact comparePlaces_lt rfl rfl (by simp only [Sign.apply]; omega)
          · exact comparePlaces_gt rfl rfl (by simp only [Sign.apply]; omega)
      | finite t n d hn =>
          have hpos' := size_pos hn d
          have hdigits := (Digits.toWritten hx).compare_size (Digits.toWritten hy)
          cases s <;> cases t
          · refine (comparePlaces_eq rfl rfl).trans ?_
            show some (compare (-_) (-_)) = some (Ordering.swap _)
            rw [compare_neg, compare_natCast, hdigits]
          · exact comparePlaces_lt rfl rfl (by simp only [Sign.apply]; omega)
          · exact comparePlaces_gt rfl rfl (by simp only [Sign.apply]; omega)
          · refine (comparePlaces_eq rfl rfl).trans ?_
            show some (compare (size m e : Int) (size n d)) = some _
            rw [compare_natCast, hdigits]

/-! ### Sums -/

/-- The place of a finite double. -/
def FinitePlace (c : Int) : Prop :=
  ∃ m e, Digits m e ∧ c.natAbs = size m e

theorem finitePlace_zero : FinitePlace 0 :=
  ⟨0, -1074, ⟨⟨le_rfl, by decide, Or.inr rfl⟩, by decide⟩, (Nat.zero_mul _).symm⟩

theorem natAbs_apply (s : Sign) (n : Nat) : (s.apply n).natAbs = n := by
  cases s <;> simp [Sign.apply]

theorem finitePlace_apply (s : Sign) {m : Nat} {e : Int} (h : Digits m e) :
    FinitePlace (s.apply (size m e)) :=
  ⟨m, e, h, natAbs_apply s _⟩

/-- Where a rounded number is. -/
theorem place_round (s : Sign) {m : Nat} {e : Int} (hm : 0 < m) (he : -1074 ≤ e) :
    ∃ r : Nat, place (Float.Model.pack (UnpackedFloat.round .binary64 s m e)).unpack =
        some (s.apply r) ∧
      ∀ {m' : Nat} {e' : Int}, Digits m' e' →
        (size m' e' ≤ size m e → size m' e' ≤ r) ∧ (size m e ≤ size m' e' → r ≤ size m' e') := by
  obtain ⟨n, d, hn, hround, hwritten, hbetween⟩ := round_written s hm he
  rw [hround]
  rcases le_or_gt d 971 with hgreatest | hlarge
  · rw [unpack_pack_finite s hn ⟨hwritten, hgreatest⟩]
    exact ⟨size n d, rfl, fun hdigits => hbetween hdigits.toWritten⟩
  · rw [unpack_pack_beyond s hn hlarge]
    refine ⟨beyond, rfl, fun hdigits => ⟨fun _ => hdigits.size_lt.le, fun h => ?_⟩⟩
    have hfull := hwritten.full.resolve_right (by omega)
    have hcross := hdigits.size_lt_shift (lt_of_le_of_lt hdigits.greatest hlarge) hfull
    exact absurd ((hbetween hdigits.toWritten).2 h) (Nat.not_le.mpr hcross)

theorem exists_apply {μ : Int} (h : μ ≠ 0) : ∃ (s : Sign) (m : Nat), 0 < m ∧ μ = s.apply m := by
  rcases lt_or_gt_of_ne h with hneg | hpos
  · exact ⟨.negative, μ.natAbs, by omega, by simp only [Sign.apply]; omega⟩
  · exact ⟨.positive, μ.natAbs, by omega, by simp only [Sign.apply]; omega⟩

theorem normalize_apply (s z : Sign) {m : Nat} (hm : 0 < m) (e : Int) :
    UnpackedFloat.normalize .binary64 (s.apply m) e z = UnpackedFloat.round .binary64 s m e := by
  unfold UnpackedFloat.normalize
  cases s with
  | positive =>
      have hpos : (0 : Int) < m := Int.ofNat_lt.mpr hm
      simp only [Sign.apply, compare_gt_iff_gt.mpr hpos, Int.toNat_natCast]
  | negative =>
      have hneg : -(m : Int) < 0 := Int.neg_neg_of_pos (Int.ofNat_lt.mpr hm)
      simp only [Sign.apply, compare_lt_iff_lt.mpr hneg, Int.neg_neg, Int.toNat_natCast]

theorem apply_mul (s : Sign) (a b : Int) : s.apply a * b = s.apply (a * b) := by
  cases s
  · exact Int.neg_mul a b
  · rfl

/-- **Normalizing does not cross a double.** -/
theorem place_normalize (μ : Int) {e : Int} (he : -1074 ≤ e) (z : Sign) :
    ∃ r, place (Float.Model.pack (UnpackedFloat.normalize .binary64 μ e z)).unpack = some r ∧
      ∀ {c : Int}, FinitePlace c →
        (c ≤ μ * 2 ^ (e + 1074).toNat → c ≤ r) ∧ (μ * 2 ^ (e + 1074).toNat ≤ c → r ≤ c) := by
  by_cases hzero : μ = 0
  · subst hzero
    have hnormal : UnpackedFloat.normalize .binary64 0 e z = .zero z := by
      unfold UnpackedFloat.normalize
      rw [compare_eq_iff_eq.mpr rfl]
    rw [hnormal]
    refine ⟨0, by cases z <;> rfl, fun {c} _ => ?_⟩
    rw [Int.zero_mul]
    exact ⟨id, id⟩
  · obtain ⟨s, m, hm, rfl⟩ := exists_apply hzero
    obtain ⟨r, hr, hbetween⟩ := place_round s hm he
    rw [normalize_apply s z hm]
    refine ⟨s.apply r, hr, ?_⟩
    rintro c ⟨m', e', hdigits, habs⟩
    obtain ⟨hbelow, habove⟩ := hbetween hdigits
    rw [← habs] at hbelow habove
    have hvalue : s.apply m * 2 ^ (e + 1074).toNat = s.apply (size m e) := by
      rw [apply_mul, size]
      push_cast
      rfl
    rw [hvalue]
    cases s <;> simp only [Sign.apply] <;> omega

/-- **A sum of finite doubles** does not cross a double. -/
theorem place_add_finite (s t : Sign) {m n : Nat} {e d : Int} (hm : 0 < m) (hn : 0 < n)
    (h : Digits m e) (h' : Digits n d) :
    ∃ r, place (Float.Model.pack (UnpackedFloat.add .binary64 (.finite s m e hm)
        (.finite t n d hn))).unpack = some r ∧
      ∀ {c : Int}, FinitePlace c →
        (c ≤ s.apply (size m e) + t.apply (size n d) → c ≤ r) ∧
          (s.apply (size m e) + t.apply (size n d) ≤ c → r ≤ c) := by
  obtain ⟨f, hf⟩ : ∃ f, f = min e d := ⟨_, rfl⟩
  have hleast : -1074 ≤ f := by
    have := h.least
    have := h'.least
    omega
  obtain ⟨i, hi⟩ : ∃ i : Nat, e = f + i := ⟨(e - f).toNat, by omega⟩
  obtain ⟨j, hj⟩ : ∃ j : Nat, d = f + j := ⟨(d - f).toNat, by omega⟩
  have hadd : UnpackedFloat.add .binary64 (.finite s m e hm) (.finite t n d hn) =
      UnpackedFloat.normalize .binary64 (s.apply (m * 2 ^ i : Nat) + t.apply (n * 2 ^ j : Nat)) f
        .positive := by
    rw [← Nat.shiftLeft_eq, ← Nat.shiftLeft_eq, show i = (e - min e d).toNat by omega,
      show j = (d - min e d).toNat by omega, hf]
    rfl
  have hvalue : s.apply (size m e) + t.apply (size n d) =
      (s.apply (m * 2 ^ i : Nat) + t.apply (n * 2 ^ j : Nat)) * 2 ^ (f + 1074).toNat := by
    rw [hi, hj, size_shift m hleast, size_shift n hleast, Int.add_mul, apply_mul, apply_mul, size,
      size]
    push_cast
    rfl
  rw [hadd, hvalue]
  exact place_normalize _ hleast _

/-- **A sum** does not cross zero, nor its first operand. -/
theorem place_add {x y : UnpackedFloat} (hx : Regular x) (hy : Regular y) {p q r : Int}
    (hp : place x = some p) (hq : place y = some q)
    (hr : place (Float.Model.pack (UnpackedFloat.add .binary64 x y)).unpack = some r) {c : Int}
    (hc : c = p ∨ c = 0) : (c ≤ p + q → c ≤ r) ∧ (p + q ≤ c → r ≤ c) := by
  have hbeyond := beyond_pos
  -- Infinities and zeros are not rounded.
  have hsum : ∀ {z : UnpackedFloat}, UnpackedFloat.add .binary64 x y = z → Regular z →
      place z = some r := by
    rintro z rfl hz
    rwa [place_pack hz] at hr
  cases x with
  | notANumber => cases hp
  | infinity s =>
      obtain rfl := Option.some.inj hp
      cases y with
      | notANumber => cases hq
      | infinity t =>
          obtain rfl := Option.some.inj hq
          by_cases hst : s = t
          · subst hst
            have hz : UnpackedFloat.add .binary64 (.infinity s) (.infinity s) = .infinity s := by
              cases s <;> rfl
            obtain rfl := Option.some.inj (hsum hz trivial)
            cases s <;> simp only [Sign.apply] at hc ⊢ <;> omega
          · have hz : UnpackedFloat.add .binary64 (.infinity s) (.infinity t) = .notANumber := by
              cases s <;> cases t <;> first | rfl | exact absurd rfl hst
            cases hsum hz trivial
      | zero t =>
          obtain rfl := Option.some.inj hq
          obtain rfl := Option.some.inj (hsum rfl trivial)
          cases s <;> simp only [Sign.apply] at hc ⊢ <;> omega
      | finite t n d hn =>
          obtain rfl := Option.some.inj hq
          obtain rfl := Option.some.inj (hsum rfl trivial)
          have hsize := Digits.size_lt hy
          cases s <;> cases t <;> simp only [Sign.apply] at hc ⊢ <;> omega
  | zero s =>
      obtain rfl := Option.some.inj hp
      have hz : place (UnpackedFloat.add .binary64 (.zero s) y) = place y ∧
          Regular (UnpackedFloat.add .binary64 (.zero s) y) := by
        cases y with
        | zero t => cases s <;> cases t <;> exact ⟨rfl, trivial⟩
        | _ => exact ⟨rfl, hy⟩
      have hresult := hsum rfl hz.2
      rw [hz.1, hq] at hresult
      obtain rfl := Option.some.inj hresult
      omega
  | finite s m e hm =>
      obtain rfl := Option.some.inj hp
      have hsize := Digits.size_lt hx
      cases y with
      | notANumber => cases hq
      | infinity t =>
          obtain rfl := Option.some.inj hq
          obtain rfl := Option.some.inj (hsum rfl trivial)
          cases s <;> cases t <;> simp only [Sign.apply] at hc ⊢ <;> omega
      | zero t =>
          obtain rfl := Option.some.inj hq
          obtain rfl := Option.some.inj (hsum rfl hx)
          omega
      | finite t n d hn =>
          obtain rfl := Option.some.inj hq
          obtain ⟨r', hr', hbetween⟩ := place_add_finite s t hm hn hx hy
          rw [hr'] at hr
          obtain rfl := Option.some.inj hr
          rcases hc with rfl | rfl
          · exact hbetween (finitePlace_apply s hx)
          · exact hbetween finitePlace_zero

/-- What is added to an infinity leaves it, unless the sum is no number. -/
theorem place_add_beyond {x y : UnpackedFloat} (hx : Regular x) {p r : Int}
    (hp : place x = some p) (hbeyond : p.natAbs = beyond)
    (hr : place (Float.Model.pack (UnpackedFloat.add .binary64 x y)).unpack = some r) : r = p := by
  have hpos := beyond_pos
  cases x with
  | notANumber => cases hp
  | infinity s =>
      have hz : UnpackedFloat.add .binary64 (.infinity s) y = .infinity s ∨
          UnpackedFloat.add .binary64 (.infinity s) y = .notANumber := by
        cases y with
        | infinity t => cases s <;> cases t <;> first | exact Or.inl rfl | exact Or.inr rfl
        | notANumber => exact Or.inr rfl
        | _ => exact Or.inl rfl
      rcases hz with hz | hz
      · rw [hz, place_pack hx, hp] at hr
        exact (Option.some.inj hr).symm
      · rw [hz] at hr
        cases hr
  | zero s =>
      obtain rfl := Option.some.inj hp
      omega
  | finite s m e hm =>
      obtain rfl := Option.some.inj hp
      rw [natAbs_apply] at hbeyond
      exact absurd hbeyond (Digits.size_lt hx).ne

/-- Only the sum of infinities is no number. -/
theorem place_add_none {x y : UnpackedFloat} (hx : Regular x) (hy : Regular y) {p q : Int}
    (hp : place x = some p) (hq : place y = some q)
    (hr : place (Float.Model.pack (UnpackedFloat.add .binary64 x y)).unpack = none) :
    q.natAbs = beyond := by
  have hsum : ∀ {z : UnpackedFloat}, UnpackedFloat.add .binary64 x y = z → Regular z →
      place z = none := by
    rintro z rfl hz
    rwa [place_pack hz] at hr
  cases y with
  | notANumber => cases hq
  | infinity t =>
      obtain rfl := Option.some.inj hq
      exact natAbs_apply t beyond
  | zero t =>
      cases x with
      | notANumber => cases hp
      | zero s => cases s <;> cases t <;> cases hsum rfl trivial
      | _ => cases hsum rfl hx
  | finite t n d hn =>
      cases x with
      | notANumber => cases hp
      | infinity s => cases hsum rfl hx
      | zero s => cases hsum rfl hy
      | finite s m e hm =>
          obtain ⟨r, hr', -⟩ := place_add_finite s t hm hn hx hy
          rw [hr'] at hr
          cases hr

theorem apply_neg (s : Sign) (n : Int) : (-s).apply n = -s.apply n := by
  cases s
  · exact (Int.neg_neg n).symm
  · rfl

/-- A difference is the sum with the opposite number. -/
theorem unpacked_sub (x y : UnpackedFloat) :
    UnpackedFloat.sub .binary64 x y = UnpackedFloat.add .binary64 x y.neg := by
  cases x with
  | finite s m e hm =>
      cases y with
      | finite t n d hn =>
          refine congrArg (fun μ => UnpackedFloat.normalize .binary64 μ (min e d) .positive) ?_
          rw [apply_neg]
          rfl
      | _ => rfl
  | _ => cases y <;> rfl

theorem neg_regular {x : UnpackedFloat} (h : Regular x) : Regular x.neg := by
  cases x with
  | finite s m e hm => exact h
  | _ => trivial

theorem place_neg (x : UnpackedFloat) : place x.neg = (place x).map (- ·) := by
  cases x with
  | finite s m e hm => exact congrArg some (apply_neg s _)
  | infinity s => exact congrArg some (apply_neg s _)
  | _ => rfl

/-- What is not negative is not left of zero. -/
theorem place_signed {x : UnpackedFloat} (h : Signed .positive x) :
    ∃ p, place x = some p ∧ 0 ≤ p := by
  cases x with
  | notANumber => cases h
  | infinity s =>
      obtain rfl : s = .positive := h
      exact ⟨_, rfl, Int.natCast_nonneg _⟩
  | zero s => exact ⟨0, rfl, le_rfl⟩
  | finite s m e hm =>
      obtain rfl : s = .positive := h
      exact ⟨_, rfl, Int.natCast_nonneg _⟩

theorem positive_of_apply {s : Sign} {n : Nat} (hn : 0 < n) (h : 0 ≤ s.apply n) :
    s = .positive := by
  cases s with
  | positive => rfl
  | negative =>
      simp only [Sign.apply] at h
      omega

/-- **A product** of two numbers that are not negative is not negative. -/
theorem place_mul {x y : UnpackedFloat} {p q r : Int}
    (hp : place x = some p) (hq : place y = some q) (hp0 : 0 ≤ p) (hq0 : 0 ≤ q)
    (hr : place (Float.Model.pack (UnpackedFloat.mul .binary64 x y)).unpack = some r) :
    0 ≤ r := by
  have hsigned : ∀ {z : UnpackedFloat}, UnpackedFloat.mul .binary64 x y = z →
      Signed .positive z → 0 ≤ r := by
    rintro z rfl hz
    obtain ⟨r', hr', hr0⟩ := place_signed (unpack_pack_signed hz)
    rw [hr] at hr'
    cases hr'
    exact hr0
  have hzero : ∀ s, UnpackedFloat.mul .binary64 x y = .zero s → 0 ≤ r := by
    intro s hz
    rw [hz, place_pack (show Regular (.zero s) from trivial)] at hr
    obtain rfl := Option.some.inj hr
    exact le_rfl
  have hnan : UnpackedFloat.mul .binary64 x y = .notANumber → 0 ≤ r := by
    intro hz
    rw [hz] at hr
    cases hr
  cases x with
  | notANumber => cases hp
  | infinity s =>
      obtain rfl := Option.some.inj hp
      obtain rfl := positive_of_apply beyond_pos hp0
      cases y with
      | notANumber => cases hq
      | infinity t =>
          obtain rfl := Option.some.inj hq
          obtain rfl := positive_of_apply beyond_pos hq0
          exact hsigned rfl rfl
      | zero t => exact hnan rfl
      | finite t n d hn =>
          obtain rfl := Option.some.inj hq
          obtain rfl := positive_of_apply (size_pos hn d) hq0
          exact hsigned rfl rfl
  | zero s =>
      cases y with
      | notANumber => cases hq
      | infinity t => exact hnan rfl
      | _ => exact hzero _ rfl
  | finite s m e hm =>
      obtain rfl := Option.some.inj hp
      obtain rfl := positive_of_apply (size_pos hm e) hp0
      cases y with
      | notANumber => cases hq
      | infinity t =>
          obtain rfl := Option.some.inj hq
          obtain rfl := positive_of_apply beyond_pos hq0
          exact hsigned rfl rfl
      | zero t => exact hzero _ rfl
      | finite t n d hn =>
          obtain rfl := Option.some.inj hq
          obtain rfl := positive_of_apply (size_pos hn d) hq0
          exact hsigned rfl (roundWithAccuracy_signed _ _ _ _)

/-! ### Doubles as scalars -/

/-- The place of a double, `none` for a NaN. -/
def placeOf (a : Float) : Option Int :=
  place a.toModel.unpack

variable {a b x : Float} {p q r : Int}

theorem compareModel_eq (a b : Float) :
    compareModel a b = comparePlaces a.toModel.unpack b.toModel.unpack :=
  compare_place (unpack_regular _) (unpack_regular _)

/-- **Doubles are compared by their places.** -/
theorem compare?_eq (a b : Float) :
    Scalar.compare? a b = (placeOf a).bind fun p => (placeOf b).map (compare p) := by
  show Double.compare? a b = comparePlaces a.toModel.unpack b.toModel.unpack
  unfold Double.compare?
  simp only [lt_iff, beq_iff, compareModel_eq]
  cases ha : place a.toModel.unpack with
  | none => simp [comparePlaces, ha]
  | some p =>
      cases hb : place b.toModel.unpack with
      | none => simp [comparePlaces, ha, hb]
      | some q =>
          rw [comparePlaces_eq ha hb, comparePlaces_eq hb ha]
          rcases lt_trichotomy p q with h | rfl | h
          · rw [if_pos (congrArg some (compare_lt_iff_lt.mpr h)), compare_lt_iff_lt.mpr h]
          · simp
          · have hne : compare p q = .gt := compare_gt_iff_gt.mpr h
            simp [hne, compare_lt_iff_lt.mpr h]

theorem lt_iff_place :
    Scalar.lt a b = true ↔ ∃ p q, placeOf a = some p ∧ placeOf b = some q ∧ p < q := by
  unfold Scalar.lt
  rw [beq_iff_eq, compare?_eq]
  cases ha : placeOf a with
  | none => simp
  | some p =>
      cases hb : placeOf b with
      | none => simp
      | some q => simp [compare_lt_iff_lt]

theorem le_iff_place :
    Scalar.le a b = true ↔ ∃ p q, placeOf a = some p ∧ placeOf b = some q ∧ p ≤ q := by
  unfold Scalar.le
  rw [Bool.or_eq_true, beq_iff_eq, beq_iff_eq, compare?_eq]
  cases ha : placeOf a with
  | none => simp
  | some p =>
      cases hb : placeOf b with
      | none => simp
      | some q => simp [compare_lt_iff_lt, le_iff_lt_or_eq]

theorem placeOf_zero : placeOf 0 = some 0 :=
  rfl

theorem lt_eq_false (h : ∀ p q, placeOf a = some p → placeOf b = some q → q ≤ p) :
    Scalar.lt a b = false := by
  rw [← Bool.not_eq_true, lt_iff_place]
  rintro ⟨p, q, ha, hb, hlt⟩
  exact absurd (h p q ha hb) (not_le.mpr hlt)

theorem place_nonneg (h : Scalar.lt a 0 = false) (ha : placeOf a = some p) : 0 ≤ p := by
  rw [← Bool.not_eq_true, lt_iff_place] at h
  exact not_lt.mp fun hlt => h ⟨p, 0, ha, placeOf_zero, hlt⟩

theorem isNaN_eq (a : Float) : Scalar.isNaN a = (placeOf a).isNone := by
  unfold Scalar.isNaN
  rw [compare?_eq]
  cases placeOf a <;> rfl

theorem placeOf_neg (a : Float) : placeOf (-a) = (placeOf a).map (- ·) := by
  show place (Float.Model.pack a.toModel.unpack.neg).unpack = _
  rw [place_pack (neg_regular (unpack_regular _)), place_neg]
  rfl

/-- A product that is a number has numbers as factors. -/
theorem placeOf_mul_some (hr : placeOf (a * b) = some r) :
    ∃ p q, placeOf a = some p ∧ placeOf b = some q := by
  have hnan : UnpackedFloat.mul .binary64 a.toModel.unpack b.toModel.unpack ≠ .notANumber := by
    intro hnan
    have hproduct : placeOf (a * b) = place (Float.Model.pack (UnpackedFloat.mul .binary64
        a.toModel.unpack b.toModel.unpack)).unpack := rfl
    rw [hproduct, hnan] at hr
    cases hr
  cases ha : a.toModel.unpack with
  | notANumber =>
      rw [ha] at hnan
      cases b.toModel.unpack <;> exact absurd rfl hnan
  | _ =>
      cases hb : b.toModel.unpack with
      | notANumber =>
          rw [ha, hb] at hnan
          exact absurd rfl hnan
      | _ => exact ⟨_, _, congrArg place ha, congrArg place hb⟩

theorem placeOf_mul (ha : placeOf a = some p) (hb : placeOf b = some q)
    (hr : placeOf (a * b) = some r) (hp : 0 ≤ p) (hq : 0 ≤ q) : 0 ≤ r :=
  place_mul ha hb hp hq hr

theorem placeOf_add (ha : placeOf a = some p) (hx : placeOf x = some q)
    (hr : placeOf (a + x) = some r) : (0 ≤ q → p ≤ r) ∧ (q ≤ 0 → r ≤ p) := by
  have hsum := place_add (unpack_regular _) (unpack_regular _) ha hx hr (Or.inl rfl)
  omega

/-- A sum that is a number has numbers as operands. -/
theorem placeOf_add_some (hr : placeOf (a + x) = some r) : ∃ q, placeOf x = some q := by
  cases hx : x.toModel.unpack with
  | notANumber =>
      have hsum : placeOf (a + x) = place (Float.Model.pack (UnpackedFloat.add .binary64
          a.toModel.unpack .notANumber)).unpack := by
        rw [← hx]
        rfl
      have hnan : UnpackedFloat.add .binary64 a.toModel.unpack .notANumber = .notANumber := by
        cases a.toModel.unpack <;> rfl
      rw [hsum, hnan] at hr
      cases hr
  | _ => exact ⟨_, congrArg place hx⟩

theorem placeOf_add_beyond (ha : placeOf a = some p) (hbeyond : p.natAbs = beyond)
    (hr : placeOf (a + x) = some r) : r = p :=
  place_add_beyond (unpack_regular _) ha hbeyond hr

theorem place_neg_of (ha : placeOf a = some p) : place a.toModel.unpack.neg = some (-p) := by
  rw [place_neg]
  exact congrArg (Option.map (- ·)) ha

theorem placeOf_sub_eq (a b : Float) :
    placeOf (b - a) = place (Float.Model.pack (UnpackedFloat.add .binary64 b.toModel.unpack
      a.toModel.unpack.neg)).unpack := by
  rw [← unpacked_sub]
  rfl

theorem placeOf_sub (ha : placeOf a = some p) (hb : placeOf b = some q)
    (hr : placeOf (b - a) = some r) : (p ≤ q → 0 ≤ r) ∧ (q ≤ p → r ≤ 0) := by
  have hneg := place_neg_of ha
  rw [placeOf_sub_eq] at hr
  have hsum := place_add (unpack_regular _) (neg_regular (unpack_regular _)) hb hneg hr
    (Or.inr rfl)
  omega

theorem placeOf_sub_none (ha : placeOf a = some p) (hb : placeOf b = some q)
    (hr : placeOf (b - a) = none) : p.natAbs = beyond := by
  have hneg := place_neg_of ha
  rw [placeOf_sub_eq] at hr
  have hbeyond := place_add_none (unpack_regular _) (neg_regular (unpack_regular _)) hb hneg hr
  rwa [Int.natAbs_neg] at hbeyond

theorem placeOf_minNum (a b : Float) :
    placeOf (Scalar.minNum a b) = Option.merge min (placeOf a) (placeOf b) := by
  unfold Scalar.minNum
  rw [compare?_eq, isNaN_eq]
  cases ha : placeOf a with
  | none => simp
  | some p =>
      cases hb : placeOf b with
      | none => simp [ha]
      | some q =>
          rcases lt_trichotomy p q with h | rfl | h
          · simp [compare_lt_iff_lt.mpr h, ha, min_eq_left h.le]
          · simp [hb]
          · simp [compare_gt_iff_gt.mpr h, hb, min_eq_right h.le]

theorem placeOf_maxNum (a b : Float) :
    placeOf (Scalar.maxNum a b) = Option.merge max (placeOf a) (placeOf b) := by
  unfold Scalar.maxNum
  rw [compare?_eq, isNaN_eq]
  cases ha : placeOf a with
  | none => simp
  | some p =>
      cases hb : placeOf b with
      | none => simp [ha]
      | some q =>
          rcases lt_trichotomy p q with h | rfl | h
          · simp [compare_lt_iff_lt.mpr h, hb, max_eq_right h.le]
          · simp [hb]
          · simp [compare_gt_iff_gt.mpr h, ha, max_eq_left h.le]

theorem placeOf_limit (x d : Float) :
    placeOf (Scalar.limit x (-d) d) =
      Option.merge min (Option.merge max (placeOf x) ((placeOf d).map (- ·))) (placeOf d) := by
  rw [Scalar.limit, placeOf_minNum, placeOf_maxNum, placeOf_neg]

/-! ### Strides -/

variable {d : Float}

/-- **A step that is kept within a stride** does not go the other way. -/
theorem placeOf_step (hd : Scalar.lt d 0 = false) (ha : placeOf a = some p)
    (hb : placeOf b = some q) (hr : placeOf (a + Scalar.limit (b - a) (-d) d) = some r) :
    (p ≤ q → p ≤ r) ∧ (q ≤ p → r ≤ p) := by
  cases hway : placeOf (b - a) with
  | none =>
      -- There is no way between equal infinities, and no step leaves one.
      obtain rfl := placeOf_add_beyond ha (placeOf_sub_none ha hb hway) hr
      exact ⟨fun _ => le_rfl, fun _ => le_rfl⟩
  | some w =>
      obtain ⟨hup, hdown⟩ := placeOf_sub ha hb hway
      obtain ⟨v, hv⟩ := placeOf_add_some hr
      obtain ⟨hforth, hback⟩ := placeOf_add ha hv hr
      rw [placeOf_limit, hway] at hv
      cases hstride : placeOf d with
      | none =>
          rw [hstride] at hv
          cases hv
          exact ⟨fun h => hforth (hup h), fun h => hback (hdown h)⟩
      | some δ =>
          have hδ := place_nonneg hd hstride
          rw [hstride] at hv
          obtain rfl : min (max w (-δ)) δ = v := Option.some.inj hv
          constructor
          · intro h
            exact hforth (le_min (le_max_of_le_left (hup h)) hδ)
          · intro h
            exact hback (min_le_of_left_le (max_le (hdown h) (by omega)))

/-- **A step up** is not below where it starts. -/
theorem step_up (hd : Scalar.lt d 0 = false) (hab : Scalar.le a b = true) :
    Scalar.lt (a + Scalar.limit (b - a) (-d) d) a = false := by
  obtain ⟨p, q, ha, hb, hpq⟩ := le_iff_place.mp hab
  refine lt_eq_false fun r p' hr hp' => ?_
  rw [ha] at hp'
  cases hp'
  exact (placeOf_step hd ha hb hr).1 hpq

/-- **A step down** is not above where it starts. -/
theorem step_down (hd : Scalar.lt d 0 = false) (hba : Scalar.le b a = true) :
    Scalar.lt a (a + Scalar.limit (b - a) (-d) d) = false := by
  obtain ⟨q, p, hb, ha, hqp⟩ := le_iff_place.mp hba
  refine lt_eq_false fun p' r hp' hr => ?_
  rw [ha] at hp'
  cases hp'
  exact (placeOf_step hd ha hb hr).2 hqp

/-- **A stride below zero** is taken whatever the way is. -/
theorem limit_back (hd : Scalar.lt d 0 = true) : Scalar.limit x (-d) d = d := by
  obtain ⟨δ, z, hδ, hz, hneg⟩ := lt_iff_place.mp hd
  cases hz
  obtain ⟨μ, hμ, hle⟩ : ∃ μ, placeOf (Scalar.maxNum x (-d)) = some μ ∧ -δ ≤ μ := by
    rw [placeOf_maxNum, placeOf_neg, hδ]
    cases placeOf x with
    | none => exact ⟨-δ, rfl, le_rfl⟩
    | some w => exact ⟨max w (-δ), rfl, le_max_right _ _⟩
  have hcompare : Scalar.compare? (Scalar.maxNum x (-d)) d = some .gt := by
    rw [compare?_eq, hμ, hδ]
    exact congrArg some (compare_gt_iff_gt.mpr (by omega))
  rw [Scalar.limit, Scalar.minNum, hcompare]

/-- Adding a double below zero leads to nothing above. -/
theorem add_back (hd : Scalar.lt d 0 = true) : Scalar.lt a (a + d) = false := by
  obtain ⟨δ, z, hδ, hz, hneg⟩ := lt_iff_place.mp hd
  cases hz
  exact lt_eq_false fun p r hp hr => (placeOf_add hp hδ hr).2 (by omega)

/-- A product of doubles that are not below zero is not below zero. -/
theorem mul_not_below (ha : Scalar.lt a 0 = false) (hb : Scalar.lt b 0 = false) :
    Scalar.lt (a * b) 0 = false := by
  refine lt_eq_false fun r z hr hz => ?_
  cases hz
  obtain ⟨p, q, hp, hq⟩ := placeOf_mul_some hr
  exact placeOf_mul hp hq hr (place_nonneg ha hp) (place_nonneg hb hq)

theorem not_below_of_positive (h : Scalar.lt 0 a = true) : Scalar.lt a 0 = false := by
  obtain ⟨z, p, hz, hp, hlt⟩ := lt_iff_place.mp h
  refine lt_eq_false fun p' z' hp' hz' => ?_
  rw [hp] at hp'
  cases hp'
  cases hz
  cases hz'
  exact hlt.le

end SignalNet.Double
