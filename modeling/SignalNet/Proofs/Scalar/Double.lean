import SignalNet.Scalar.Double

/-!
# Signs of doubles

A double that is no NaN has a sign (`Double.Signed`), also where it is zero or
infinite.  Packing, negation and multiplication treat signs as one expects,
and a negative double is never above a positive one.

The result is `Double.neg_mul_le_mul`: a rate limiter in double precision
always has a range to keep to.
-/

namespace SignalNet.Double

open Float.Model Float.Model.UnpackedFloat

/-- A double that is no NaN and has the given sign. -/
def Signed (sign : Sign) : UnpackedFloat → Prop
  | .notANumber => False
  | .infinity s => s = sign
  | .zero s => s = sign
  | .finite s _ _ _ => s = sign

/-- A double that is finite and above zero. -/
def Positive : UnpackedFloat → Prop
  | .finite s _ _ _ => s = .positive
  | _ => False

/-! ### Packing -/

theorem sign_packComponents (format : Format) (sign : Sign)
    (exponent : BitVec format.exponentBits)
    (mantissa : BitVec format.mantissaBitsWithoutImplicit) :
    Sign.ofBitVec (unpackSign (packComponents format sign exponent mantissa)) = sign := by
  have hbits : unpackSign (packComponents format sign exponent mantissa) = sign.toBitVec := by
    ext i hi
    obtain rfl : i = 0 := by omega
    unfold unpackSign packComponents
    simp [BitVec.getLsbD_append, BitVec.getElem_append]
  rw [hbits]
  cases sign <;> rfl

/-- What is unpacked from bits that encode no NaN has their sign. -/
theorem unpack_signed {sign : Sign} {bits : BitVec Format.binary64.numBits}
    (hsign : Sign.ofBitVec (unpackSign bits) = sign)
    (h : unpackExponent bits = -1#11 → unpackMantissa bits = 0#52) :
    Signed sign (UnpackedFloat.unpack .binary64 bits) := by
  unfold UnpackedFloat.unpack
  dsimp only
  by_cases hinfinite : unpackExponent bits = -1#11
  · rw [if_pos hinfinite, if_pos (h hinfinite)]
    exact hsign
  · rw [if_neg hinfinite]
    by_cases hsmall : unpackExponent bits = 0#11
    · rw [if_pos hsmall]
      by_cases hzero : unpackMantissa bits = 0#52
      · rw [dif_pos hzero]
        exact hsign
      · rw [dif_neg hzero]
        exact hsign
    · rw [if_neg hsmall]
      exact hsign

theorem unpack_packComponents_signed (sign : Sign) (exponent : BitVec 11) (mantissa : BitVec 52)
    (h : exponent = -1#11 → mantissa = 0#52) :
    Signed sign
      (UnpackedFloat.unpack .binary64 (packComponents .binary64 sign exponent mantissa)) := by
  refine unpack_signed (sign_packComponents .binary64 sign exponent mantissa) ?_
  rw [unpackMantissa_packComponents, unpackExponent_packComponents]
  exact h

/-- A double keeps its sign when it is packed and unpacked. -/
theorem unpack_pack_signed {sign : Sign} {x : UnpackedFloat} (h : Signed sign x) :
    Signed sign (Float.Model.pack x).unpack := by
  show Signed sign (UnpackedFloat.unpack .binary64 (UnpackedFloat.pack .binary64 x))
  cases x with
  | notANumber => cases h
  | infinity s =>
      obtain rfl : s = sign := h
      exact unpack_packComponents_signed s _ _ fun _ => rfl
  | zero s =>
      obtain rfl : s = sign := h
      exact unpack_packComponents_signed s _ _ fun _ => rfl
  | finite s m e hm =>
      obtain rfl : s = sign := h
      unfold UnpackedFloat.pack
      dsimp only
      split
      · exact unpack_packComponents_signed s _ _ fun _ => rfl
      · next hsmall =>
          split
          · -- The exponent of a normal number is not the one of infinities.
            refine unpack_packComponents_signed s _ _ fun hexponent => ?_
            have hbits := congrArg BitVec.toNat hexponent
            simp only [BitVec.toNat_ofNat, BitVec.neg_one_eq_allOnes, BitVec.toNat_allOnes] at hbits
            omega
          · refine unpack_packComponents_signed s _ _ fun hexponent => ?_
            cases hexponent

/-! ### Arithmetic and comparison -/

theorem neg_signed {x : UnpackedFloat} (h : Signed .positive x) : Signed .negative x.neg := by
  cases x with
  | notANumber => cases h
  | infinity s =>
      obtain rfl : s = .positive := h
      rfl
  | zero s =>
      obtain rfl : s = .positive := h
      rfl
  | finite s m e hm =>
      obtain rfl : s = .positive := h
      rfl

theorem zero_or_finite_signed (sign : Sign) (mantissa : Nat) (exponent : Int) :
    Signed sign (if h : mantissa = 0 then .zero sign
      else .finite sign mantissa exponent (Nat.pos_of_ne_zero h)) := by
  by_cases hzero : mantissa = 0
  · rw [dif_pos hzero]
    rfl
  · rw [dif_neg hzero]
    rfl

/-- Rounding keeps the sign. -/
theorem roundWithAccuracy_signed (sign : Sign) (mantissa : Nat) (exponent : Int)
    (accuracy : Accuracy) :
    Signed sign (roundWithAccuracy .binary64 sign mantissa exponent accuracy) := by
  unfold roundWithAccuracy
  exact zero_or_finite_signed sign _ _

/-- The product of positive doubles is no NaN and not negative. -/
theorem mul_signed {x y : UnpackedFloat} (hx : Positive x) (hy : Positive y) :
    Signed .positive (UnpackedFloat.mul .binary64 x y) := by
  cases x with
  | finite s m e hm =>
      cases y with
      | finite t n d hn =>
          obtain rfl : s = .positive := hx
          obtain rfl : t = .positive := hy
          exact roundWithAccuracy_signed _ _ _ _
      | _ => cases hy
  | _ => cases hx

/-- A negative double is not above a positive one. -/
theorem compare_signed {x y : UnpackedFloat} (hx : Signed .negative x) (hy : Signed .positive y) :
    x.compare y = some .lt ∨ x.compare y = some .eq := by
  cases x with
  | notANumber => cases hx
  | infinity s =>
      obtain rfl : s = .negative := hx
      cases y with
      | notANumber => cases hy
      | infinity t =>
          obtain rfl : t = .positive := hy
          exact Or.inl rfl
      | _ => exact Or.inl rfl
  | zero s =>
      cases y with
      | notANumber => cases hy
      | infinity t =>
          obtain rfl : t = .positive := hy
          exact Or.inl rfl
      | zero t => exact Or.inr rfl
      | finite t m e hm =>
          obtain rfl : t = .positive := hy
          exact Or.inl rfl
  | finite s m e hm =>
      obtain rfl : s = .negative := hx
      cases y with
      | notANumber => cases hy
      | infinity t =>
          obtain rfl : t = .positive := hy
          exact Or.inl rfl
      | zero t => exact Or.inl rfl
      | finite t n d hn =>
          obtain rfl : t = .positive := hy
          exact Or.inl rfl

/-! ### Doubles as scalars -/

/-- The comparison of the model. -/
def compareModel (a b : Float) : Option Ordering :=
  a.toModel.unpack.compare b.toModel.unpack

theorem lt_iff {a b : Float} : a < b ↔ compareModel a b = some .lt := by
  show Float.lt a b = true ↔ _
  unfold Float.lt
  rw [decide_eq_true_iff]
  show (compareModel a b == some .lt) = true ↔ _
  exact beq_iff_eq

theorem beq_iff {a b : Float} : (a == b) = true ↔ compareModel a b = some .eq := by
  show (compareModel a b == some .eq) = true ↔ _
  exact beq_iff_eq

/-- Less and equal are what the model says. -/
theorem compare?_of_model {a b : Float} {o : Ordering} (h : compareModel a b = some o)
    (ho : o = .lt ∨ o = .eq) : Double.compare? a b = some o := by
  unfold Double.compare?
  rcases ho with rfl | rfl
  · rw [if_pos (lt_iff.mpr h)]
  · have hlt : ¬ a < b := by
      rw [lt_iff, h]
      simp
    rw [if_neg hlt, if_pos (beq_iff.mpr h)]

/-- A finite double that is not below or at zero is positive. -/
theorem positive_of_not_le {a : Float} (hfinite : Scalar.isFinite a = true)
    (h : Scalar.le a 0 = false) : Positive a.toModel.unpack := by
  have hmodel : a.toModel.unpack.isFinite = true := hfinite
  have hnot : ∀ o, compareModel a 0 = some o → o = .lt ∨ o = .eq → False := by
    intro o ho hcases
    have hcompare : Scalar.compare? a 0 = some o := compare?_of_model ho hcases
    unfold Scalar.le at h
    rcases hcases with rfl | rfl <;> simp [hcompare] at h
  have hzero : compareModel a 0 = a.toModel.unpack.compare (.zero .positive) := rfl
  cases hx : a.toModel.unpack with
  | notANumber =>
      rw [hx] at hmodel
      cases hmodel
  | infinity s =>
      rw [hx] at hmodel
      cases hmodel
  | zero s =>
      rw [hx] at hzero
      exact (hnot .eq hzero (Or.inr rfl)).elim
  | finite s m e hm =>
      rw [hx] at hzero
      cases s with
      | positive => rfl
      | negative => exact (hnot .lt hzero (Or.inl rfl)).elim

/-- A finite double above zero is positive. -/
theorem positive_of_lt {a : Float} (hfinite : Scalar.isFinite a = true)
    (h : Scalar.lt 0 a = true) : Positive a.toModel.unpack := by
  have hmodel : a.toModel.unpack.isFinite = true := hfinite
  have hlt : compareModel 0 a = some .lt := by
    have hcompare : Double.compare? 0 a = some .lt := by
      unfold Scalar.lt at h
      exact beq_iff_eq.mp h
    unfold Double.compare? at hcompare
    split at hcompare
    · next hlt => exact lt_iff.mp hlt
    · split at hcompare
      · cases hcompare
      · split at hcompare <;> cases hcompare
  have hzero : compareModel 0 a = (UnpackedFloat.zero .positive).compare a.toModel.unpack := rfl
  rw [hzero] at hlt
  cases hx : a.toModel.unpack with
  | notANumber =>
      rw [hx] at hmodel
      cases hmodel
  | infinity s =>
      rw [hx] at hmodel
      cases hmodel
  | zero s =>
      rw [hx] at hlt
      cases hlt
  | finite s m e hm =>
      rw [hx] at hlt
      cases s with
      | positive => rfl
      | negative => cases hlt

/-- **A rate limiter has a range to keep to.**  The product of a positive rate
and a positive period is no NaN and not negative. -/
theorem neg_mul_le_mul (rate period : Float) (hrate : Scalar.isFinite rate = true)
    (hnot : Scalar.le rate 0 = false) (hperiod : Scalar.isFinite period = true)
    (hpositive : Scalar.lt 0 period = true) :
    Scalar.le (-(rate * period)) (rate * period) = true := by
  have hproduct : Signed .positive (rate * period).toModel.unpack :=
    unpack_pack_signed (mul_signed (positive_of_not_le hrate hnot)
      (positive_of_lt hperiod hpositive))
  have hnegated : Signed .negative (-(rate * period)).toModel.unpack :=
    unpack_pack_signed (neg_signed hproduct)
  unfold Scalar.le
  rcases compare_signed hnegated hproduct with hlt | heq
  · have hcompare : Scalar.compare? (-(rate * period)) (rate * period) = some .lt :=
      compare?_of_model hlt (Or.inl rfl)
    simp [hcompare]
  · have hcompare : Scalar.compare? (-(rate * period)) (rate * period) = some .eq :=
      compare?_of_model heq (Or.inr rfl)
    simp [hcompare]

end SignalNet.Double
