import SignalNet.Proofs.Scalar.Zeros

/-!
# Products of scalars

Folding moves literals to the right of a product and leaves out the factor
one.  This changes nothing where products commute and one is neutral
(`Scalar.ProductLaws`).  Exact scalars meet these laws
(`Scalar.Exact.productLaws`), and so do doubles, bit by bit
(`Double.productLaws`): a product by one has the digits of the other factor,
shifted up and down again.
-/

namespace SignalNet

/-- Products commute, and one is neutral. -/
structure Scalar.ProductLaws (α : Type) [Scalar α] : Prop extends Scalar.ZeroLaws α where
  mul_comm : ∀ a b : α, a * b = b * a
  mul_one : ∀ a : α, a * 1 = a

/-- **Products of exact scalars.** -/
theorem Scalar.Exact.productLaws {α : Type} [Scalar α] {K : Type} [Field K] [LinearOrder K]
    (reading : Exact α K) : ProductLaws α where
  toZeroLaws := reading.zeroLaws
  mul_comm a b := reading.injective (by rw [reading.mul, reading.mul, mul_comm])
  mul_one a := reading.injective (by rw [reading.mul, reading.one, mul_one])

namespace Double

open Float.Model Float.Model.UnpackedFloat

theorem sign_mul_comm (s t : Sign) : s * t = t * s := by
  cases s <;> cases t <;> rfl

theorem unpacked_mul_comm (x y : UnpackedFloat) :
    UnpackedFloat.mul .binary64 x y = UnpackedFloat.mul .binary64 y x := by
  cases x with
  | notANumber => cases y <;> rfl
  | infinity s =>
      cases y with
      | notANumber => rfl
      | infinity t => exact congrArg UnpackedFloat.infinity (sign_mul_comm s t)
      | zero t => rfl
      | finite t n d hn => exact congrArg UnpackedFloat.infinity (sign_mul_comm s t)
  | zero s =>
      cases y with
      | notANumber => rfl
      | infinity t => rfl
      | zero t => exact congrArg UnpackedFloat.zero (sign_mul_comm s t)
      | finite t n d hn => exact congrArg UnpackedFloat.zero (sign_mul_comm s t)
  | finite s m e hm =>
      cases y with
      | notANumber => rfl
      | infinity t => exact congrArg UnpackedFloat.infinity (sign_mul_comm s t)
      | zero t => exact congrArg UnpackedFloat.zero (sign_mul_comm s t)
      | finite t n d hn =>
          show roundWithAccuracy .binary64 (s * t) (m * n) (e + d) .exact =
            roundWithAccuracy .binary64 (t * s) (n * m) (d + e) .exact
          rw [sign_mul_comm, Nat.mul_comm, Int.add_comm]

/-! ### Products by one -/

theorem model_mul_one (x : Float.Model) : x * (1.0 : Float).toModel = x := by
  have hone : (1.0 : Float).toModel.unpack =
      .finite .positive (2 ^ 52) (-52) (Nat.two_pow_pos 52) := rfl
  have hmul : UnpackedFloat.mul .binary64 x.unpack (1.0 : Float).toModel.unpack = x.unpack := by
    rw [hone]
    cases hx : x.unpack with
    | notANumber => rfl
    | infinity s => cases s <;> rfl
    | zero s => cases s <;> rfl
    | finite s m e hm =>
        obtain ⟨he, hlog, hfull⟩ := unpack_finite hx
        have htarget := targetExponent_eq he hlog hfull
        have hsign : s * Sign.positive = s := by cases s <;> rfl
        show roundWithAccuracy .binary64 (s * .positive) (m * 2 ^ 52) (e - (52 : Nat)) .exact = _
        rw [hsign]
        exact roundWithAccuracy_exact s hm htarget
  show Float.Model.pack (UnpackedFloat.mul .binary64 x.unpack (1.0 : Float).toModel.unpack) = x
  rw [hmul, model_pack_unpack]

/-- **Products of doubles.** -/
theorem productLaws : Scalar.ProductLaws Float where
  toZeroLaws := zeroLaws
  mul_comm a b := by
    refine congrArg Float.ofModel ?_
    show Float.Model.pack (UnpackedFloat.mul .binary64 a.toModel.unpack b.toModel.unpack) =
      Float.Model.pack (UnpackedFloat.mul .binary64 b.toModel.unpack a.toModel.unpack)
    rw [unpacked_mul_comm]
  mul_one a := congrArg Float.ofModel (model_mul_one a.toModel)

end Double

end SignalNet
