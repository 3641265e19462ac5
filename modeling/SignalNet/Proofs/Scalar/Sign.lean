import SignalNet.Proofs.Scalar.Double

/-!
# Changing the sign of a double

Packing and unpacking a double are exact, so a double whose sign changes keeps
its digits (`Double.pack_withSign`).  Negating twice is the identity and an
absolute value is its own, also for zeros, infinities and the NaN
(`Double.signLaws`).
-/

namespace SignalNet

/-- Two changes of the sign cancel, and an absolute value is its own. -/
structure Scalar.SignLaws (α : Type) [Scalar α] : Prop where
  neg_neg : ∀ x : α, -(-x) = x
  abs_abs : ∀ x : α, Scalar.abs (Scalar.abs x) = Scalar.abs x

namespace Double

open Float.Model Float.Model.UnpackedFloat

/-- The double with the given sign and the digits of another one. -/
def withSign (sign : Sign) : UnpackedFloat → UnpackedFloat
  | .notANumber => .notANumber
  | .infinity _ => .infinity sign
  | .zero _ => .zero sign
  | .finite _ m e hm => .finite sign m e hm

theorem neg_eq_withSign {sign : Sign} {x : UnpackedFloat} (h : Signed sign x) :
    x.neg = withSign (-sign) x := by
  cases x with
  | notANumber => cases h
  | infinity s => exact congrArg (fun s => UnpackedFloat.infinity (-s)) h
  | zero s => exact congrArg (fun s => UnpackedFloat.zero (-s)) h
  | finite s m e hm =>
      obtain rfl : s = sign := h
      rfl

theorem abs_eq_withSign (x : UnpackedFloat) : x.abs = withSign .positive x := by
  cases x <;> rfl

/-- The bits of a double are put together from its parts. -/
theorem packComponents_unpack (bits : BitVec Format.binary64.numBits) :
    packComponents .binary64 (Sign.ofBitVec (unpackSign bits)) (unpackExponent bits)
      (unpackMantissa bits) = bits := by
  have hsign : (Sign.ofBitVec (unpackSign bits)).toBitVec = unpackSign bits := by
    generalize unpackSign bits = b
    rcases BitVec.eq_zero_or_eq_one b with rfl | rfl <;> rfl
  unfold packComponents
  rw [hsign]
  ext i hi
  have hlt : i < 64 := hi
  unfold unpackSign unpackExponent unpackMantissa
  simp only [BitVec.getElem_append, BitVec.getElem_cast, BitVec.extractLsb,
    BitVec.getElem_extractLsb']
  rw [← BitVec.getLsbD_eq_getElem]
  split
  · congr 1
    omega
  · split
    · congr 1
      omega
    · congr 1
      omega

/-- The bits encode no NaN. -/
def Ordinary (bits : BitVec Format.binary64.numBits) : Prop :=
  unpackExponent bits = -1#11 → unpackMantissa bits = 0#52

/-- **A double keeps its digits when its sign changes.** -/
theorem pack_withSign (sign : Sign) {bits : BitVec Format.binary64.numBits}
    (h : Ordinary bits) :
    UnpackedFloat.pack .binary64 (withSign sign (UnpackedFloat.unpack .binary64 bits)) =
      packComponents .binary64 sign (unpackExponent bits) (unpackMantissa bits) := by
  have hmantissa : (unpackMantissa bits).toNat < 2 ^ 52 := (unpackMantissa bits).isLt
  have hexponent : (unpackExponent bits).toNat < 2048 := (unpackExponent bits).isLt
  unfold UnpackedFloat.unpack
  dsimp only
  by_cases hinfinite : unpackExponent bits = -1#11
  · rw [if_pos hinfinite, if_pos (h hinfinite), hinfinite, h hinfinite]
    rfl
  · rw [if_neg hinfinite]
    by_cases hsmall : unpackExponent bits = 0#11
    · rw [if_pos hsmall]
      by_cases hzero : unpackMantissa bits = 0#52
      · rw [dif_pos hzero, hsmall, hzero]
        rfl
      · -- A subnormal double has fewer digits than a normal one.
        rw [dif_neg hzero]
        show UnpackedFloat.pack .binary64 (.finite _ _ _ _) = _
        unfold UnpackedFloat.pack
        dsimp only
        have hne : (unpackMantissa bits).toNat ≠ 0 := fun heq =>
          hzero (BitVec.eq_of_toNat_eq (by rw [heq]; rfl))
        have hlog : (unpackMantissa bits).toNat.log2 < 52 := (Nat.log2_lt hne).mpr hmantissa
        rw [if_neg, if_neg]
        · rw [hsmall, BitVec.ofNat_toNat, BitVec.setWidth_eq]
        · show ¬ _ = 1 + 52
          omega
        · rw [hsmall]
          decide
    · rw [if_neg hsmall]
      show UnpackedFloat.pack .binary64 (.finite _ _ _ _) = _
      unfold UnpackedFloat.pack
      dsimp only
      have hbelow : (unpackExponent bits).toNat ≠ 2047 := fun heq =>
        hinfinite (BitVec.eq_of_toNat_eq (by rw [heq]; rfl))
      have hdigits : (1#1 ++ unpackMantissa bits).toNat =
          2 ^ 52 + (unpackMantissa bits).toNat := by
        rw [BitVec.toNat_append, ← Nat.shiftLeft_add_eq_or_of_lt hmantissa]
        rfl
      have hbiased : (((unpackExponent bits).toNat : Int) -
          (Format.binary64.exponentBias + (52 : Nat)) + Format.binary64.exponentBias +
          (52 : Nat)).toNat = (unpackExponent bits).toNat := by
        omega
      have hlog : (2 ^ 52 + (unpackMantissa bits).toNat).log2 = 52 := by
        rw [Nat.log2_eq_iff (by omega)]
        omega
      rw [hdigits, hbiased, if_neg, if_pos]
      · rw [BitVec.ofNat_toNat, BitVec.setWidth_eq]
        congr 1
        apply BitVec.eq_of_toNat_eq
        rw [BitVec.toNat_ofNat]
        show _ % 2 ^ 52 = _
        omega
      · rw [hlog]
        rfl
      · show ¬ 2 ^ 11 ≤ _
        omega

theorem ordinary_packComponents {bits : BitVec Format.binary64.numBits} (h : Ordinary bits)
    (sign : Sign) :
    Ordinary (packComponents .binary64 sign (unpackExponent bits) (unpackMantissa bits)) := by
  unfold Ordinary
  rw [unpackMantissa_packComponents, unpackExponent_packComponents]
  exact h

/-- Two changes of the sign come to one. -/
theorem pack_withSign_twice {sign sign' : Sign} {bits : BitVec Format.binary64.numBits}
    (h : Ordinary bits) :
    UnpackedFloat.pack .binary64 (withSign sign (UnpackedFloat.unpack .binary64
        (UnpackedFloat.pack .binary64 (withSign sign' (UnpackedFloat.unpack .binary64 bits))))) =
      UnpackedFloat.pack .binary64 (withSign sign (UnpackedFloat.unpack .binary64 bits)) := by
  rw [pack_withSign sign' h, pack_withSign sign (ordinary_packComponents h sign'),
    unpackMantissa_packComponents, unpackExponent_packComponents, pack_withSign sign h]

theorem model_ext {x y : Float.Model} (h : x.toBits.toBitVec = y.toBits.toBitVec) : x = y := by
  cases x with
  | mk bits valid =>
      cases y with
      | mk bits' valid' =>
          cases bits
          cases bits'
          simp only at h
          subst h
          rfl

/-- A double is a NaN, the only one, or its bits encode no NaN. -/
theorem nan_or_ordinary (x : Float.Model) :
    x = Float.Model.pack .notANumber ∨ Ordinary x.toBits.toBitVec := by
  by_cases h : Ordinary x.toBits.toBitVec
  · exact Or.inr h
  · left
    obtain ⟨hexponent, hmantissa⟩ := Classical.not_imp.mp h
    exact model_ext (x.valid.eq_packedNaN hexponent hmantissa)

theorem model_neg_neg (x : Float.Model) : - -x = x := by
  rcases nan_or_ordinary x with rfl | hx
  · rfl
  · apply model_ext
    let bits : BitVec Format.binary64.numBits := x.toBits.toBitVec
    let sign := Sign.ofBitVec (unpackSign bits)
    have hsigned : Signed sign (UnpackedFloat.unpack .binary64 bits) := unpack_signed rfl hx
    have hneg : (UnpackedFloat.unpack .binary64 bits).neg =
        withSign (-sign) (UnpackedFloat.unpack .binary64 bits) := neg_eq_withSign hsigned
    have hagain : Signed (-sign)
        (Float.Model.pack (UnpackedFloat.unpack .binary64 bits).neg).unpack := by
      apply unpack_pack_signed
      rw [hneg]
      cases hu : UnpackedFloat.unpack .binary64 bits with
      | notANumber =>
          rw [hu] at hsigned
          cases hsigned
      | _ => rfl
    show UnpackedFloat.pack .binary64 (UnpackedFloat.neg (Float.Model.pack
      (UnpackedFloat.unpack .binary64 bits).neg).unpack) = bits
    rw [neg_eq_withSign hagain, hneg]
    show UnpackedFloat.pack .binary64 (withSign (- -sign) (UnpackedFloat.unpack .binary64
      (UnpackedFloat.pack .binary64 (withSign (-sign) (UnpackedFloat.unpack .binary64 bits))))) =
        bits
    have hsign : - -sign = sign := by cases sign <;> rfl
    rw [pack_withSign_twice hx, pack_withSign _ hx, hsign]
    exact packComponents_unpack bits

theorem model_abs_abs (x : Float.Model) : x.abs.abs = x.abs := by
  rcases nan_or_ordinary x with rfl | hx
  · rfl
  · apply model_ext
    show UnpackedFloat.pack .binary64 (UnpackedFloat.abs (UnpackedFloat.unpack .binary64
      (UnpackedFloat.pack .binary64 (UnpackedFloat.abs (UnpackedFloat.unpack .binary64
        x.toBits.toBitVec))))) =
      UnpackedFloat.pack .binary64 (UnpackedFloat.abs (UnpackedFloat.unpack .binary64
        x.toBits.toBitVec))
    simp only [abs_eq_withSign]
    exact pack_withSign_twice hx

/-- **Signs of doubles change as one expects.** -/
theorem signLaws : Scalar.SignLaws Float where
  neg_neg x := congrArg Float.ofModel (model_neg_neg x.toModel)
  abs_abs x := congrArg Float.ofModel (model_abs_abs x.toModel)

end Double

end SignalNet
