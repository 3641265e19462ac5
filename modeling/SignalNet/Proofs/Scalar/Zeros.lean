import SignalNet.Proofs.Scalar.Exact
import SignalNet.Proofs.Scalar.Sign

/-!
# Scalars up to the sign of zero

Structural sharing identifies the two zeros of double precision, so a network
may carry one where the other was written down.  `Scalar.ZeroLaws` says what
this can change: nothing but zeros is identified, and neither a comparison nor
a subtraction sees which zero it is given.  What a limiter puts out is then
determined up to the sign of zero (`Scalar.ZeroLaws.same_limit`).

Exact scalars have one zero (`Scalar.Exact.zeroLaws`).  Doubles have two and
meet the laws as well (`Double.zeroLaws`), which is shown on the bits: a
quotient by one has the digits of its dividend.
-/

namespace SignalNet

namespace Scalar

variable {α : Type} [Scalar α]

/-- A number kept within bounds, as `Value.limit?` keeps it. -/
def limit (x lower upper : α) : α :=
  minNum (maxNum x lower) upper

theorem same_iff {a b : α} : same a b = true ↔ canonical a = canonical b := by
  simp [same]

/-- Sharing identifies zeros only, and arithmetic does not tell them apart. -/
structure ZeroLaws (α : Type) [Scalar α] : Prop where
  div_one : ∀ a : α, a / 1 = a
  one_ne_zero : eqv (1 : α) 0 = false
  same_of_eqv : ∀ {a b : α}, eqv a b = true → same a b = true
  eq_or_zeros : ∀ {a b : α}, same a b = true → a = b ∨ eqv a 0 = true ∧ eqv b 0 = true
  same_sub_zero : ∀ {z : α} (a : α), eqv z 0 = true → same (a - z) (a - 0) = true
  compare_zero_left : ∀ {z : α} (a : α), eqv z 0 = true → compare? z a = compare? 0 a
  compare_zero_right : ∀ {z : α} (a : α), eqv z 0 = true → compare? a z = compare? a 0

namespace ZeroLaws

variable (laws : ZeroLaws α) {a a' b b' : α}

include laws

/-! ### Comparisons -/

theorem compare?_eq (ha : same a a' = true) (hb : same b b' = true) :
    compare? a b = compare? a' b' := by
  have hleft : compare? a b = compare? a' b := by
    rcases laws.eq_or_zeros ha with rfl | ⟨hz, hz'⟩
    · rfl
    · rw [laws.compare_zero_left b hz, laws.compare_zero_left b hz']
  have hright : compare? a' b = compare? a' b' := by
    rcases laws.eq_or_zeros hb with rfl | ⟨hz, hz'⟩
    · rfl
    · rw [laws.compare_zero_right a' hz, laws.compare_zero_right a' hz']
  exact hleft.trans hright

theorem le_eq (ha : same a a' = true) (hb : same b b' = true) : le a b = le a' b' := by
  rw [le, le, laws.compare?_eq ha hb]

theorem isNaN_eq (ha : same a a' = true) : isNaN a = isNaN a' := by
  rw [isNaN, isNaN, laws.compare?_eq ha ha]

theorem same_minNum (ha : same a a' = true) (hb : same b b' = true) :
    same (minNum a b) (minNum a' b') = true := by
  unfold minNum
  rw [laws.compare?_eq ha hb, laws.isNaN_eq ha]
  split
  · exact ha
  · exact hb
  · split
    · exact hb
    · exact ha

theorem same_maxNum (ha : same a a' = true) (hb : same b b' = true) :
    same (maxNum a b) (maxNum a' b') = true := by
  unfold maxNum
  rw [laws.compare?_eq ha hb, laws.isNaN_eq ha]
  split
  · exact ha
  · exact hb
  · split
    · exact hb
    · exact ha

/-- **A limiter does not see the sign of zero.** -/
theorem same_limit {lower lower' upper upper' : α} (ha : same a a' = true)
    (hlower : same lower lower' = true) (hupper : same upper upper' = true) :
    same (limit a lower upper) (limit a' lower' upper') = true :=
  laws.same_minNum (laws.same_maxNum ha hlower) hupper

/-! ### Other scalars than zero -/

/-- A positive scalar is no zero. -/
theorem eqv_zero_of_positive (hpositive : lt 0 a = true) : eqv a 0 = false := by
  rw [← Bool.not_eq_true]
  intro hzero
  -- A zero would be below itself.
  have hlt : compare? a a = some .lt := by
    rw [laws.compare_zero_left a hzero]
    exact beq_iff_eq.mp hpositive
  have heq : compare? a a = some .eq := by
    rw [laws.compare_zero_right a hzero]
    exact beq_iff_eq.mp hzero
  rw [hlt] at heq
  cases heq

/-- A positive scalar is not identified with another one. -/
theorem eq_of_positive (hpositive : lt 0 a = true) (h : same b a = true) : b = a := by
  rcases laws.eq_or_zeros h with rfl | ⟨-, hzero⟩
  · rfl
  · rw [laws.eqv_zero_of_positive hpositive] at hzero
    cases hzero

theorem eq_one (h : same a 1 = true) : a = 1 := by
  rcases laws.eq_or_zeros h with rfl | ⟨-, hzero⟩
  · rfl
  · rw [laws.one_ne_zero] at hzero
    cases hzero

/-- What counts as zero changes a difference by no more than a sign. -/
theorem same_sub (a : α) {z : α} (hz : same z 0 = true) : same (a - z) (a - 0) = true := by
  rcases laws.eq_or_zeros hz with rfl | ⟨hzero, -⟩
  · exact same_iff.mpr rfl
  · exact laws.same_sub_zero a hzero

end ZeroLaws

end Scalar

/-- **Exact scalars** have one zero. -/
theorem Scalar.Exact.zeroLaws {α : Type} [Scalar α] {K : Type} [Field K] [LinearOrder K]
    (reading : Exact α K) : ZeroLaws α := by
  have heq : ∀ {a b : α}, eqv a b = true → a = b := fun h =>
    reading.injective (reading.eqv_iff.mp h)
  exact {
    div_one := fun a => reading.injective (by rw [reading.div, reading.one, div_one])
    one_ne_zero := by
      rw [← Bool.not_eq_true, reading.eqv_iff, reading.one, reading.zero]
      exact one_ne_zero
    same_of_eqv := fun h => same_iff.mpr (congrArg _ (heq h))
    eq_or_zeros := fun h => Or.inl (reading.eq_of_same h)
    same_sub_zero := fun a hz => by rw [heq hz]; exact same_iff.mpr rfl
    compare_zero_left := fun a hz => by rw [heq hz]
    compare_zero_right := fun a hz => by rw [heq hz] }

namespace Double

open Float.Model Float.Model.UnpackedFloat

/-! ### Packing what was unpacked -/

theorem withSign_self {sign : Sign} {x : UnpackedFloat} (h : Signed sign x) :
    withSign sign x = x := by
  cases x with
  | notANumber => cases h
  | infinity s => exact congrArg UnpackedFloat.infinity h.symm
  | zero s => exact congrArg UnpackedFloat.zero h.symm
  | finite s m e hm =>
      obtain rfl : s = sign := h
      rfl

/-- Packing restores a double from its parts. -/
theorem model_pack_unpack (x : Float.Model) : Float.Model.pack x.unpack = x := by
  rcases nan_or_ordinary x with rfl | hx
  · rfl
  · apply model_ext
    let bits : BitVec Format.binary64.numBits := x.toBits.toBitVec
    have hsigned : Signed (Sign.ofBitVec (unpackSign bits))
        (UnpackedFloat.unpack .binary64 bits) := unpack_signed rfl hx
    have hpack := pack_withSign (Sign.ofBitVec (unpackSign bits)) hx
    rw [withSign_self hsigned, packComponents_unpack] at hpack
    exact hpack

theorem unpack_injective {x y : Float.Model} (h : x.unpack = y.unpack) : x = y := by
  rw [← model_pack_unpack x, h, model_pack_unpack]

theorem eq_of_unpack {a b : Float} (h : a.toModel.unpack = b.toModel.unpack) : a = b :=
  congrArg Float.ofModel (unpack_injective h)

/-! ### Quotients by one -/

/-- The digits and the exponent of a double, as its bits give them: those of a
subnormal double, or with a leading digit that is not written. -/
theorem unpack_finite_cases {bits : BitVec Format.binary64.numBits} {s : Sign} {m : Nat} {e : Int}
    {hm : 0 < m} (h : UnpackedFloat.unpack .binary64 bits = .finite s m e hm) :
    (m = (unpackMantissa bits).toNat ∧ e = -1074) ∨
      unpackExponent bits ≠ 0#11 ∧ unpackExponent bits ≠ -1#11 ∧
        m = (1#1 ++ unpackMantissa bits).toNat ∧ e = (unpackExponent bits).toNat - 1075 := by
  unfold UnpackedFloat.unpack at h
  dsimp only at h
  by_cases htop : unpackExponent bits = -1#11
  · rw [if_pos htop] at h
    by_cases hzero : unpackMantissa bits = 0#52
    · rw [if_pos hzero] at h
      cases h
    · rw [if_neg hzero] at h
      cases h
  · rw [if_neg htop] at h
    by_cases hsmall : unpackExponent bits = 0#11
    · rw [if_pos hsmall] at h
      by_cases hzero : unpackMantissa bits = 0#52
      · rw [dif_pos hzero] at h
        cases h
      · rw [dif_neg hzero, UnpackedFloat.finite.injEq] at h
        obtain ⟨-, rfl, rfl⟩ := h
        rw [hsmall]
        exact Or.inl ⟨rfl, rfl⟩
    · rw [if_neg hsmall, UnpackedFloat.finite.injEq] at h
      obtain ⟨-, rfl, rfl⟩ := h
      exact Or.inr ⟨hsmall, htop, rfl, rfl⟩

/-- The digits and the exponent of a double: either all digits are used, or
the exponent is the least one. -/
theorem unpack_finite {bits : BitVec Format.binary64.numBits} {s : Sign} {m : Nat} {e : Int}
    {hm : 0 < m} (h : UnpackedFloat.unpack .binary64 bits = .finite s m e hm) :
    -1074 ≤ e ∧ m.log2 ≤ 52 ∧ (m.log2 = 52 ∨ e = -1074) := by
  have hmantissa : (unpackMantissa bits).toNat < 2 ^ 52 := (unpackMantissa bits).isLt
  rcases unpack_finite_cases h with ⟨rfl, rfl⟩ | ⟨hsmall, -, rfl, rfl⟩
  · have hlog : (unpackMantissa bits).toNat.log2 < 52 := by
      refine (Nat.log2_lt ?_).mpr hmantissa
      omega
    exact ⟨le_refl _, hlog.le, Or.inr rfl⟩
  · have hdigits : (1#1 ++ unpackMantissa bits).toNat =
        2 ^ 52 + (unpackMantissa bits).toNat := by
      rw [BitVec.toNat_append, ← Nat.shiftLeft_add_eq_or_of_lt hmantissa]
      rfl
    have hlog : (2 ^ 52 + (unpackMantissa bits).toNat).log2 = 52 := by
      rw [Nat.log2_eq_iff (by omega)]
      omega
    have hpositive : (unpackExponent bits).toNat ≠ 0 := fun heq =>
      hsmall (BitVec.eq_of_toNat_eq (by rw [heq]; rfl))
    rw [hdigits, hlog]
    exact ⟨by omega, le_refl _, Or.inl rfl⟩

/-- A double has its exponent where rounding puts it. -/
theorem targetExponent_eq {m : Nat} {e : Int} (he : -1074 ≤ e) (hlog : m.log2 ≤ 52)
    (hfull : m.log2 = 52 ∨ e = -1074) :
    Format.binary64.targetExponent (totalExponent m e) = e := by
  unfold Format.targetExponent totalExponent
  show max (_ - ((1 + 52 : Nat) : Int)) (-1074) = e
  omega

theorem shiftToTargetExponent_eq {m : Nat} {e : Int}
    (h : Format.binary64.targetExponent (totalExponent m e) = e) :
    shiftToTargetExponent .binary64 m e .exact = (⟨m, false, false⟩, e) := by
  unfold shiftToTargetExponent shiftToExponent
  dsimp only
  rw [h, Int.sub_self]
  exact congrArg (Prod.mk _) (Int.add_zero e)

/-- Zeros that are shifted out leave no trace. -/
theorem shiftRight_exact (m k : Nat) :
    (⟨m * 2 ^ k, false, false⟩ : ExtendedMantissa) >>> k = ⟨m, false, false⟩ := by
  show k.repeat ExtendedMantissa.shiftRightOne ⟨m * 2 ^ k, false, false⟩ = _
  induction k generalizing m with
  | zero =>
      rw [Nat.pow_zero, Nat.mul_one]
      rfl
  | succ k ih =>
      have hdouble : m * 2 ^ (k + 1) = m * 2 * 2 ^ k := by
        rw [Nat.pow_succ, Nat.mul_comm (2 ^ k) 2, Nat.mul_assoc]
      rw [hdouble]
      show ExtendedMantissa.shiftRightOne
        (k.repeat ExtendedMantissa.shiftRightOne ⟨m * 2 * 2 ^ k, false, false⟩) = _
      rw [ih]
      simp [ExtendedMantissa.shiftRightOne]

theorem log2_mul_two_pow {m : Nat} (hm : m ≠ 0) (k : Nat) : (m * 2 ^ k).log2 = m.log2 + k := by
  induction k with
  | zero => simp
  | succ k ih =>
      have hne : m * 2 ^ k ≠ 0 := Nat.mul_ne_zero hm (Nat.two_pow_pos k).ne'
      rw [Nat.pow_succ, ← Nat.mul_assoc, Nat.mul_comm _ 2, Nat.log2_two_mul hne, ih, Nat.add_assoc]

/-- Digits that were shifted up are shifted down to where rounding puts
them. -/
theorem shift_exact {m k : Nat} {e : Int} (hm : 0 < m)
    (h : Format.binary64.targetExponent (totalExponent m e) = e) :
    shiftToTargetExponent .binary64 (m * 2 ^ k) (e - k) .exact = (⟨m, false, false⟩, e) := by
  have htotal : totalExponent (m * 2 ^ k) (e - k) = totalExponent m e := by
    unfold totalExponent
    rw [log2_mul_two_pow hm.ne']
    push_cast
    omega
  unfold shiftToTargetExponent shiftToExponent
  dsimp only
  rw [htotal, h, show (e - (e - k)).toNat = k by omega]
  refine Prod.ext ?_ ?_
  · exact shiftRight_exact m k
  · show e - k + (k : Int) = e
    omega

/-- What is exact is not rounded. -/
theorem roundWithAccuracy_exact (s : Sign) {m k : Nat} {e : Int} (hm : 0 < m)
    (h : Format.binary64.targetExponent (totalExponent m e) = e) :
    roundWithAccuracy .binary64 s (m * 2 ^ k) (e - k) .exact = .finite s m e hm := by
  unfold roundWithAccuracy
  rw [shift_exact hm h]
  dsimp only
  have hrounded : ExtendedMantissa.roundedMantissa ⟨m, false, false⟩ = m := rfl
  rw [hrounded, shiftToTargetExponent_eq h]
  exact dif_neg (Nat.ne_of_gt hm)

/-- The quotient by one is exact. -/
theorem divCore_one {m k : Nat} {e : Int}
    (h : min (e + 52) (Format.binary64.targetExponent (totalExponent m e - 1)) = e - k) :
    divCore .binary64 m e (2 ^ 52) (-52) = (m * 2 ^ k, e - k, .exact) := by
  have hone : totalExponent (2 ^ 52) (-52) = 1 := rfl
  unfold divCore
  dsimp only
  rw [hone, show e - -52 = e + 52 by omega, h, show (e + 52 - (e - k)).toNat = k + 52 by omega,
    Nat.shiftLeft_eq, Nat.pow_add, ← Nat.mul_assoc, Nat.mul_div_cancel _ (Nat.two_pow_pos 52),
    Nat.mul_mod_left]
  rfl

theorem div_one_finite (s : Sign) {m : Nat} {e : Int} (hm : 0 < m) (he : -1074 ≤ e)
    (hlog : m.log2 ≤ 52) (hfull : m.log2 = 52 ∨ e = -1074) :
    UnpackedFloat.div .binary64 (.finite s m e hm)
      (.finite .positive (2 ^ 52) (-52) (Nat.two_pow_pos 52)) = .finite s m e hm := by
  have htarget := targetExponent_eq he hlog hfull
  have hsign : s / Sign.positive = s := by cases s <;> rfl
  unfold UnpackedFloat.div
  dsimp only
  rw [hsign]
  -- A full mantissa has room for another digit above the least exponent.
  obtain ⟨k, hk⟩ : ∃ k : Nat,
      min (e + 52) (Format.binary64.targetExponent (totalExponent m e - 1)) = e - k := by
    unfold Format.targetExponent totalExponent
    show ∃ k : Nat, min (e + 52) (max (_ - ((1 + 52 : Nat) : Int)) (-1074)) = e - k
    rcases hfull with hfull | rfl
    · exact ⟨if e = -1074 then 0 else 1, by split <;> omega⟩
    · exact ⟨0, by omega⟩
  rw [divCore_one hk]
  exact roundWithAccuracy_exact s hm htarget

theorem model_div_one (x : Float.Model) : x / (1.0 : Float).toModel = x := by
  have hone : (1.0 : Float).toModel.unpack =
      .finite .positive (2 ^ 52) (-52) (Nat.two_pow_pos 52) := rfl
  have hdiv : UnpackedFloat.div .binary64 x.unpack (1.0 : Float).toModel.unpack = x.unpack := by
    rw [hone]
    cases hx : x.unpack with
    | notANumber => rfl
    | infinity s => cases s <;> rfl
    | zero s => cases s <;> rfl
    | finite s m e hm =>
        obtain ⟨he, hlog, hfull⟩ := unpack_finite hx
        exact div_one_finite s hm he hlog hfull
  show Float.Model.pack (UnpackedFloat.div .binary64 x.unpack (1.0 : Float).toModel.unpack) = x
  rw [hdiv, model_pack_unpack]

/-! ### Zeros -/

theorem eqv_iff_model {a b : Float} :
    Scalar.eqv a b = true ↔ compareModel a b = some .eq := by
  show (Double.compare? a b == some .eq) = true ↔ _
  rw [beq_iff_eq]
  constructor
  · intro h
    unfold Double.compare? at h
    split at h
    · cases h
    · split at h
      · next heq => exact beq_iff.mp heq
      · split at h <;> cases h
  · exact fun h => compare?_of_model h (Or.inr rfl)

/-- Equal doubles have the same parts, unless they are zeros. -/
theorem compare_eq_cases {x y : UnpackedFloat} (h : x.compare y = some .eq) :
    x = y ∨ ∃ s t, x = .zero s ∧ y = .zero t := by
  cases x with
  | notANumber => cases h
  | infinity s =>
      cases y with
      | infinity t =>
          left
          cases s <;> cases t <;> first | rfl | cases h
      | notANumber => cases h
      | _ => cases s <;> cases h
  | zero s =>
      cases y with
      | zero t => exact Or.inr ⟨s, t, rfl, rfl⟩
      | notANumber => cases h
      | infinity t => cases t <;> cases h
      | finite t m e hm => cases t <;> cases h
  | finite s m e hm =>
      cases y with
      | finite t n d hn =>
          left
          have hparts : s = t ∧ (compare e d).then (compare m n) = .eq := by
            cases s with
            | positive =>
                cases t with
                | positive => exact ⟨rfl, Option.some.inj h⟩
                | negative => cases h
            | negative =>
                cases t with
                | positive => cases h
                | negative => exact ⟨rfl, Ordering.swap_eq_eq.mp (Option.some.inj h)⟩
          obtain ⟨rfl, hcompare⟩ := hparts
          obtain ⟨he, hm⟩ := Ordering.then_eq_eq.mp hcompare
          obtain rfl := compare_eq_iff_eq.mp he
          obtain rfl := compare_eq_iff_eq.mp hm
          rfl
      | notANumber => cases h
      | infinity t => cases t <;> cases h
      | zero t => cases s <;> cases h

theorem eqv_zero_iff {z : Float} : Scalar.eqv z 0 = true ↔ ∃ s, z.toModel.unpack = .zero s := by
  rw [eqv_iff_model]
  show z.toModel.unpack.compare (.zero .positive) = some .eq ↔ _
  constructor
  · intro h
    rcases compare_eq_cases h with hzero | ⟨s, -, hzero, -⟩
    · exact ⟨_, hzero⟩
    · exact ⟨s, hzero⟩
  · rintro ⟨s, hzero⟩
    rw [hzero]
    rfl

theorem canonical_zero {z : Float} (h : Scalar.eqv z 0 = true) : Double.canonical z = 0 :=
  if_pos (beq_iff.mpr (eqv_iff_model.mp h))

/-- Other doubles than zeros are their own representatives; there is one NaN. -/
theorem canonical_of_ne_zero {a : Float} (h : ¬ Scalar.eqv a 0 = true) :
    Double.canonical a = a := by
  have hne : ¬ (a == (0.0 : Float)) = true := fun hzero => h (eqv_iff_model.mpr (beq_iff.mp hzero))
  unfold Double.canonical
  rw [if_neg hne]
  split
  · next hnan =>
      apply eq_of_unpack
      have hmodel : a.toModel.unpack.isNaN = true := hnan
      cases hx : a.toModel.unpack with
      | notANumber => rfl
      | _ =>
          rw [hx] at hmodel
          cases hmodel
  · rfl

theorem eqv_zero_pack {x : Float} {s : Sign} (h : x.toModel = Float.Model.pack (.zero s)) :
    Scalar.eqv x 0 = true := by
  refine eqv_zero_iff.mpr ⟨s, ?_⟩
  rw [h]
  cases s <;> rfl

/-- A difference to a zero may be another zero, and is otherwise the same for both. -/
theorem sub_zero_cases (x : UnpackedFloat) (s t : Sign) :
    UnpackedFloat.sub .binary64 x (.zero s) = UnpackedFloat.sub .binary64 x (.zero t) ∨
      ∃ s' t', UnpackedFloat.sub .binary64 x (.zero s) = .zero s' ∧
        UnpackedFloat.sub .binary64 x (.zero t) = .zero t' := by
  cases x with
  | zero r => cases r <;> cases s <;> cases t <;> exact Or.inr ⟨_, _, rfl, rfl⟩
  | _ => exact Or.inl rfl

theorem compare_zero_left (x : UnpackedFloat) (s t : Sign) :
    (UnpackedFloat.zero s).compare x = (UnpackedFloat.zero t).compare x := by
  cases x with
  | finite r m e hm => cases r <;> rfl
  | infinity r => cases r <;> rfl
  | _ => rfl

theorem compare_zero_right (x : UnpackedFloat) (s t : Sign) :
    x.compare (.zero s) = x.compare (.zero t) := by
  cases x with
  | finite r m e hm => cases r <;> rfl
  | infinity r => cases r <;> rfl
  | _ => rfl

/-- The comparison of doubles depends on the comparison of the model. -/
theorem compare?_congr {a b c d : Float} (h : compareModel a b = compareModel c d)
    (h' : compareModel b a = compareModel d c) : Double.compare? a b = Double.compare? c d := by
  have hlt : a < b ↔ c < d := by rw [lt_iff, lt_iff, h]
  have hgt : b < a ↔ d < c := by rw [lt_iff, lt_iff, h']
  have heq : (a == b) = (c == d) := by rw [Bool.eq_iff_iff, beq_iff, beq_iff, h]
  unfold Double.compare?
  simp only [hlt, heq, hgt]

/-- **Doubles up to the sign of zero.** -/
theorem zeroLaws : Scalar.ZeroLaws Float where
  div_one a := congrArg Float.ofModel (model_div_one a.toModel)
  one_ne_zero := by decide +kernel
  same_of_eqv := by
    intro a b h
    rw [Scalar.same_iff]
    rcases compare_eq_cases (eqv_iff_model.mp h) with heq | ⟨s, t, ha, hb⟩
    · rw [eq_of_unpack heq]
    · exact (canonical_zero (eqv_zero_iff.mpr ⟨s, ha⟩)).trans
        (canonical_zero (eqv_zero_iff.mpr ⟨t, hb⟩)).symm
  eq_or_zeros := by
    intro a b h
    have hsame : Double.canonical a = Double.canonical b := Scalar.same_iff.mp h
    by_cases ha : Scalar.eqv a 0 = true
    · by_cases hb : Scalar.eqv b 0 = true
      · exact Or.inr ⟨ha, hb⟩
      · rw [canonical_zero ha, canonical_of_ne_zero hb] at hsame
        subst hsame
        exact absurd (by decide +kernel) hb
    · by_cases hb : Scalar.eqv b 0 = true
      · rw [canonical_of_ne_zero ha, canonical_zero hb] at hsame
        subst hsame
        exact absurd (by decide +kernel) ha
      · rw [canonical_of_ne_zero ha, canonical_of_ne_zero hb] at hsame
        exact Or.inl hsame
  same_sub_zero := by
    intro z a hz
    obtain ⟨s, hs⟩ := eqv_zero_iff.mp hz
    have hfirst : (a - z).toModel =
        Float.Model.pack (UnpackedFloat.sub .binary64 a.toModel.unpack (.zero s)) := by
      rw [← hs]
      rfl
    have hsecond : (a - 0).toModel =
        Float.Model.pack (UnpackedFloat.sub .binary64 a.toModel.unpack (.zero .positive)) := rfl
    rw [Scalar.same_iff]
    rcases sub_zero_cases a.toModel.unpack s .positive with heq | ⟨s', t', hs', ht'⟩
    · rw [heq, ← hsecond] at hfirst
      exact congrArg (fun x => Double.canonical (Float.ofModel x)) hfirst
    · rw [hs'] at hfirst
      rw [ht'] at hsecond
      exact (canonical_zero (eqv_zero_pack hfirst)).trans
        (canonical_zero (eqv_zero_pack hsecond)).symm
  compare_zero_left := by
    intro z a hz
    obtain ⟨s, hs⟩ := eqv_zero_iff.mp hz
    refine compare?_congr ?_ ?_
    · unfold compareModel
      rw [hs]
      exact compare_zero_left _ _ _
    · unfold compareModel
      rw [hs]
      exact compare_zero_right _ _ _
  compare_zero_right := by
    intro z a hz
    obtain ⟨s, hs⟩ := eqv_zero_iff.mp hz
    refine compare?_congr ?_ ?_
    · unfold compareModel
      rw [hs]
      exact compare_zero_right _ _ _
    · unfold compareModel
      rw [hs]
      exact compare_zero_left _ _ _

end Double

end SignalNet
